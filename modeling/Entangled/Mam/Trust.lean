import Entangled.Mam.Api
import Mathlib.Data.List.Induction
/-!
# Trust

A reader keeps two sets of keys, of channels and of endpoints it trusts. They grow when a key is
added, when a channel or an endpoint is created, and when a header announces one; the last of these
happens in the middle of `mam_msg_read_header`, and stays if something further on fails. What a
header announces counts when it is signed under the key of a channel that is trusted by then, and a
context is made for a message only when who speaks in its header is trusted.
-/

namespace Entangled

namespace Mam

open Spongos

section

variable (T : Troika)

/-- What a header signs: its version, the channel, the number of the kind and the announced key. -/
def announcedMac (chid msg : List Trit) : List Trit :=
  let s := absorb T (absorb T init (msg.take 3)) chid
  let s := absorb T (absorb T s ((msg.drop 3).take 3)) ((msg.drop 6).take 243)
  (squeeze T (commit T s) wotsHashSize).1

/-- **A key is announced** in the header at the start of `msg`, by its number and with a signature
under the key of the channel. -/
structure Announces (chid msg : List Trit) (pubkey : ℤ) (pk : List Trit) : Prop where
  version : get3 msg = 0
  pubkey_eq : get3 (msg.drop 3) = pubkey
  pk_eq : pk = (msg.drop 6).take 243
  signed : ∃ sig, sig <:+: msg.drop 249 ∧ mssVerify T (announcedMac T chid msg) sig chid = true

/-- **Who speaks** in the header at the start of `msg`: the channel, an endpoint that is trusted, or
a channel or an endpoint that is announced. -/
inductive Speaks (trusted : Trusted) (chid msg : List Trit) : List Trit → Prop
  | channel : chid ∈ trusted.channelPks → get3 msg = 0 → get3 (msg.drop 3) = 0 →
    Speaks trusted chid msg chid
  | endpoint : chid ∈ trusted.channelPks → get3 msg = 0 → get3 (msg.drop 3) = 1 →
    (msg.drop 6).take 243 ∈ trusted.endpointPks → Speaks trusted chid msg ((msg.drop 6).take 243)
  | announcedChannel {pk : List Trit} : chid ∈ trusted.channelPks → Announces T chid msg 2 pk →
    Speaks trusted chid msg pk
  | announcedEndpoint {pk : List Trit} : chid ∈ trusted.channelPks → Announces T chid msg 3 pk →
    Speaks trusted chid msg pk

end

/-! ## One header -/

section Header

variable {T : Troika} {N : Ntru} {t t' : Wire}

theorem mem_pkSetAdd {alloc : Bool} {pks : List (List Trit)} {pk pk' : List Trit}
    (hmem : pk' ∈ pkSetAdd alloc pks pk) : pk' ∈ pks ∨ pk' = pk := by
  unfold pkSetAdd at hmem
  split_ifs at hmem
  · exact .inl hmem
  · simpa using hmem
  · exact .inl hmem

theorem absorbTryte_eq_ok {tryte : ℤ} (h : pb3UnwrapAbsorbTryte T t = (.ok tryte, t')) :
    tryte = get3 t.cells ∧ t' = ⟨absorb T t.state (t.cells.take 3), t.cells.drop 3⟩ := by
  unfold pb3UnwrapAbsorbTryte unwrapAbsorb pb3DecodeTryte at h
  split_ifs at h with hshort
  · cases h
  · cases h
    rw [List.length_drop, Nat.sub_sub_self (by omega)]
    exact ⟨rfl, rfl⟩

theorem absorbNtrytes_eq_ok {n : ℕ} {trits : List Trit}
    (h : pb3UnwrapAbsorbNtrytes T n t = (.ok trits, t')) :
    trits = t.cells.take n ∧ t' = ⟨absorb T t.state (t.cells.take n), t.cells.drop n⟩ := by
  unfold pb3UnwrapAbsorbNtrytes unwrapAbsorb pb3DecodeNtrytes at h
  split_ifs at h with hshort
  · cases h
  · cases h
    rw [List.length_drop, Nat.sub_sub_self (by omega)]
    exact ⟨rfl, rfl⟩

/-- What is left behind a size. -/
theorem absorbSizeT_eq_ok {n : ℕ} (h : pb3UnwrapAbsorbSizeT T t = (.ok n, t')) :
    t'.cells <:+ t.cells := by
  unfold pb3UnwrapAbsorbSizeT unwrapAbsorb decodeSizeT at h
  dsimp only at h
  split_ifs at h
  · cases h
  · cases h
  · cases h
  · cases h
    exact (List.drop_suffix _ _).trans (List.drop_suffix _ _)

theorem skip_eq_ok {n : ℕ} {trits : List Trit} (h : pb3UnwrapSkip n t = (.ok trits, t')) :
    trits <+: t.cells := by
  unfold pb3UnwrapSkip pb3DecodeNtrytes at h
  split_ifs at h
  · cases h
  · cases h
    exact List.take_prefix _ _

/-- A signature that is accepted is found in the rest of the message. -/
theorem msgUnwrapMssig_eq_ok {pk : List Trit} (h : msgUnwrapMssig T pk t = (.ok (), t')) :
    ∃ sig, sig <:+: t.cells ∧
      mssVerify T (squeeze T (commit T t.state) wotsHashSize).1 sig pk = true := by
  obtain ⟨_, t₁, hcommit, h⟩ := TapeReader.bind_eq_ok h
  cases hcommit
  obtain ⟨mac, t₂, hmac, h⟩ := TapeReader.bind_eq_ok h
  cases hmac
  obtain ⟨sz, t₃, hsz, h⟩ := TapeReader.bind_eq_ok h
  obtain ⟨sig, t₄, hsig, h⟩ := TapeReader.bind_eq_ok h
  have hsuffix := absorbSizeT_eq_ok hsz
  exact ⟨sig, (skip_eq_ok hsig).isInfix.trans hsuffix.isInfix, (TapeReader.guard_eq_ok h).1⟩

/-- An identifier that is signed. -/
theorem msgUnwrapSignedid_eq_ok {pk id : List Trit}
    (h : msgUnwrapSignedid T pk t = (.ok id, t')) : id = t.cells.take 243 ∧
      ∃ sig, sig <:+: t.cells.drop 243 ∧ mssVerify T (squeeze T (commit T (absorb T t.state
        (t.cells.take 243))) wotsHashSize).1 sig pk = true := by
  obtain ⟨id', t₁, hid, h⟩ := TapeReader.bind_eq_ok h
  obtain ⟨hid', rfl⟩ := absorbNtrytes_eq_ok hid
  obtain ⟨_, t₂, hsig, h⟩ := TapeReader.bind_eq_ok h
  cases h
  exact ⟨hid', msgUnwrapMssig_eq_ok hsig⟩

/-- The sets of trusted keys behind a header: a key that is announced is added. -/
inductive Grows (T : Troika) (chid msg : List Trit) (alloc : Bool) (trusted : Trusted) :
    Trusted → Prop
  | same : Grows T chid msg alloc trusted trusted
  | channel {pk : List Trit} : chid ∈ trusted.channelPks → Announces T chid msg 2 pk →
    Grows T chid msg alloc trusted
      { trusted with channelPks := pkSetAdd alloc trusted.channelPks pk }
  | endpoint {pk : List Trit} : chid ∈ trusted.channelPks → Announces T chid msg 3 pk →
    Grows T chid msg alloc trusted
      { trusted with endpointPks := pkSetAdd alloc trusted.endpointPks pk }

/-- **The part of a header that says who speaks.** -/
theorem msgUnwrapPubkey_eq_ok {chid msg pk : List Trit} {trusted trusted' : Trusted} {alloc : Bool}
    (h : msgUnwrapPubkey T chid trusted alloc ⟨init, msg⟩ = (.ok (pk, trusted'), t')) :
    Speaks T trusted chid msg pk ∧ Grows T chid msg alloc trusted trusted' := by
  obtain ⟨version, t₁, hchannel, h⟩ := TapeReader.bind_eq_ok h
  obtain ⟨version', t₂, hversion, hchannel⟩ := TapeReader.bind_eq_ok hchannel
  obtain ⟨hget, rfl⟩ := absorbTryte_eq_ok hversion
  cases hchannel
  obtain ⟨_, t₂, hguard, h⟩ := TapeReader.bind_eq_ok h
  obtain ⟨hzero, rfl⟩ := TapeReader.guard_eq_ok hguard
  obtain ⟨_, t₂, hguard, h⟩ := TapeReader.bind_eq_ok h
  obtain ⟨htrusted, rfl⟩ := TapeReader.guard_eq_ok hguard
  obtain ⟨pubkey, t₂, hpubkey, h⟩ := TapeReader.bind_eq_ok h
  obtain ⟨hkind, rfl⟩ := absorbTryte_eq_ok hpubkey
  obtain ⟨_, t₂, hguard, h⟩ := TapeReader.bind_eq_ok h
  obtain ⟨hrange, rfl⟩ := TapeReader.guard_eq_ok hguard
  have hversion : get3 msg = 0 := hget.symm.trans hzero.symm
  unfold msgUnwrapPubkeyOf at h
  dsimp only at hkind h
  have hdrop : (msg.drop 3).drop 3 = msg.drop 6 := List.drop_drop
  have hdrop' : (msg.drop 6).drop 243 = msg.drop 249 := List.drop_drop
  rw [hdrop] at h
  split_ifs at h with h2 h3 h1
  · obtain ⟨id, t₃, hid, h⟩ := TapeReader.bind_eq_ok h
    obtain ⟨hpk, hsigned⟩ := msgUnwrapSignedid_eq_ok hid
    cases h
    rw [hdrop'] at hsigned
    have hannounces : Announces T chid msg 2 pk := ⟨hversion, hkind.symm.trans h2, hpk, hsigned⟩
    exact ⟨.announcedChannel htrusted hannounces, .channel htrusted hannounces⟩
  · obtain ⟨id, t₃, hid, h⟩ := TapeReader.bind_eq_ok h
    obtain ⟨hpk, hsigned⟩ := msgUnwrapSignedid_eq_ok hid
    cases h
    rw [hdrop'] at hsigned
    have hannounces : Announces T chid msg 3 pk := ⟨hversion, hkind.symm.trans h3, hpk, hsigned⟩
    exact ⟨.announcedEndpoint htrusted hannounces, .endpoint htrusted hannounces⟩
  · obtain ⟨id, t₃, hid, h⟩ := TapeReader.bind_eq_ok h
    obtain ⟨rfl, -⟩ := absorbNtrytes_eq_ok hid
    obtain ⟨_, t₄, hguard, h⟩ := TapeReader.bind_eq_ok h
    obtain ⟨hendpoint, -⟩ := TapeReader.guard_eq_ok hguard
    cases h
    exact ⟨.endpoint htrusted hversion (hkind.symm.trans h1) hendpoint, .same⟩
  · cases h
    have h0 : pubkey = 0 := by omega
    exact ⟨.channel htrusted hversion (hkind.symm.trans h0), .same⟩

/-- **A header**, whether it is read to its end or not. -/
theorem msgReadHeader_grows {chid msg msgId : List Trit} {psks : List Psk} {ntruSks : List NtruSk}
    {trusted : Trusted} {alloc : Bool} :
    Grows T chid msg alloc trusted
      (msgReadHeader T N chid psks ntruSks msgId trusted alloc msg).2.1 := by
  unfold msgReadHeader
  rcases hpubkey : msgUnwrapPubkey T chid trusted alloc ⟨init, msg⟩ with ⟨e | ⟨pk, trusted'⟩, t⟩
  · exact .same
  · have hgrows := (msgUnwrapPubkey_eq_ok hpubkey).2
    dsimp only
    generalize msgUnwrapKeyloads T N psks ntruSks msgId t = r
    obtain ⟨e | u, t'⟩ := r
    · exact hgrows
    · exact hgrows

theorem msgReadHeader_speaks {chid msg msgId pk : List Trit} {psks : List Psk}
    {ntruSks : List NtruSk} {trusted trusted' : Trusted} {alloc : Bool}
    (h : msgReadHeader T N chid psks ntruSks msgId trusted alloc msg = (.ok pk, trusted', t)) :
    Speaks T trusted chid msg pk := by
  unfold msgReadHeader at h
  rcases hpubkey : msgUnwrapPubkey T chid trusted alloc ⟨init, msg⟩ with ⟨e | ⟨pk', trusted''⟩, t₁⟩
  · rw [hpubkey] at h
    cases h
  · rw [hpubkey] at h
    dsimp only at h
    generalize msgUnwrapKeyloads T N psks ntruSks msgId t₁ = r at h
    obtain ⟨e | u, t'⟩ := r
    · cases h
    · cases h
      exact (msgUnwrapPubkey_eq_ok hpubkey).1

end Header

/-! ## One call -/

section Calls

variable {T : Troika} {N : Ntru} {M : MerkleMode}

/-- **A call vouches for the key of a channel**: it adds it, makes a channel with it, or reads a
header that announces it on a channel that is trusted. -/
def VouchesChannel (T : Troika) (pk : List Trit) (api : Api M) : Call → Prop
  | .addTrustedChannelPk pk' _ => pk' = pk
  | .channelCreate height alloc => (apiChannelCreate T api height alloc).1 = .ok pk
  | .read tx txs _ => tx.address ∈ api.trusted.channelPks ∧ tagOrd tx.tag = 0 ∧
    Announces T tx.address (bundleUnwrap (tx :: txs)) 2 pk
  | _ => False

/-- **A call vouches for the key of an endpoint.** -/
def VouchesEndpoint (T : Troika) (pk : List Trit) (api : Api M) : Call → Prop
  | .addTrustedEndpointPk pk' _ => pk' = pk
  | .endpointCreate height channelId alloc =>
    (apiEndpointCreate T api height channelId alloc).1 = .ok pk
  | .read tx txs _ => tx.address ∈ api.trusted.channelPks ∧ tagOrd tx.tag = 0 ∧
    Announces T tx.address (bundleUnwrap (tx :: txs)) 3 pk
  | _ => False

/-- **A call makes a context** for the message `msgId`, with the key of who speaks in its header. -/
def Opens (T : Troika) (msgId pk : List Trit) (api : Api M) : Call → Prop
  | .read tx txs _ => tagOrd tx.tag = 0 ∧ (∃ tx' ∈ tx :: txs, tx'.tag.take msgIdSize = msgId) ∧
    Speaks T api.trusted tx.address (bundleUnwrap (tx :: txs)) pk
  | _ => False

/-- The map of contexts, by number and key: every entry is an old one or is allowed. -/
def Extends (allowed : List Trit → List Trit → Prop) (old new : CtxMap (List Trit) ReadContext) :
    Prop :=
  ∀ e ∈ new, (∃ e' ∈ old, e'.1 = e.1 ∧ e'.2.pk = e.2.pk) ∨ allowed e.1 e.2.pk

section Extends

variable {allowed : List Trit → List Trit → Prop} {old new : CtxMap (List Trit) ReadContext}

theorem Extends.refl : Extends allowed old old := fun e he => .inl ⟨e, he, rfl, rfl⟩

theorem Extends.add {msgId : List Trit} {ctx : ReadContext} (hallowed : allowed msgId ctx.pk) :
    Extends allowed old (old.add msgId ctx) := by
  intro e he
  rcases List.mem_cons.1 he with rfl | he
  · exact .inr hallowed
  · exact .inl ⟨e, he, rfl, rfl⟩

/-- A context that goes on with the same key. -/
theorem Extends.assign {msgId : List Trit} {ctx ctx' : ReadContext}
    (hfind : old.find msgId = some ctx) (hpk : ctx'.pk = ctx.pk) :
    Extends allowed old (old.assign msgId ctx') := by
  induction old with
  | nil => cases hfind
  | cons e old ih =>
    obtain ⟨k, ctx₀⟩ := e
    rw [CtxMap.assign]
    unfold CtxMap.find at hfind ih
    rw [List.find?_cons] at hfind
    split_ifs with hk
    · subst hk
      have hctx : ctx₀ = ctx := by simpa using hfind
      intro e he
      rcases List.mem_cons.1 he with rfl | he
      · exact .inl ⟨_, List.mem_cons_self, rfl, by rw [hctx, hpk]⟩
      · exact .inl ⟨e, List.mem_cons_of_mem _ he, rfl, rfl⟩
    · have hrest := ih (by simpa [hk] using hfind)
      intro e he
      rcases List.mem_cons.1 he with rfl | he
      · exact .inl ⟨_, List.mem_cons_self, rfl, rfl⟩
      · rcases hrest e he with ⟨e', he', hsame⟩ | hallowed
        · exact .inl ⟨e', List.mem_cons_of_mem _ he', hsame⟩
        · exact .inr hallowed

theorem Extends.remove {msgId : List Trit} (H : Extends allowed old new) :
    Extends allowed old (new.remove msgId) := fun e he => H e (List.mem_of_mem_eraseP he)

end Extends

/-- A packet is read with the key of the context. -/
theorem pk_readPacketFromMsg (ctx : ReadContext) (msg : List Trit) (alloc : Bool) :
    (apiBundleReadPacketFromMsg T ctx msg alloc).2.pk = ctx.pk := by
  unfold apiBundleReadPacketFromMsg
  dsimp only
  generalize msgReadPacket T ctx.ord ctx.pk alloc ⟨ctx.spongos, msg⟩ = r
  obtain ⟨e | payload, t⟩ := r
  · rfl
  · dsimp only
    split_ifs <;> rfl

/-- The first packet in the bundle of a header. -/
theorem readFirst_extends (api : Api M) (ctx : ReadContext) (tx : Transaction)
    (txs : List Transaction) (d : ℕ) (alloc : ℕ → Bool) :
    (apiBundleReadFirst T api ctx (tx :: txs) (tx.tag.take msgIdSize) d alloc).2.trusted =
        api.trusted ∧
      Extends (fun msgId pk => (∃ tx' ∈ tx :: txs, tx'.tag.take msgIdSize = msgId) ∧ pk = ctx.pk)
        api.readCtxs
        (apiBundleReadFirst T api ctx (tx :: txs) (tx.tag.take msgIdSize) d alloc).2.readCtxs := by
  unfold apiBundleReadFirst
  dsimp only
  rcases htx : (tx :: txs)[d / numTritsMessage + 1]? with _ | tx'
  · dsimp only
    split_ifs
    · exact ⟨rfl, .refl⟩
    · exact ⟨rfl, .add ⟨⟨tx, List.mem_cons_self, rfl⟩, rfl⟩⟩
  · dsimp only
    have hpk := pk_readPacketFromMsg (T := T)
      (if tagOrd tx'.tag < 0 then { ctx with ord := tagOrd tx'.tag } else ctx)
      ((bundleUnwrap (tx :: txs)).drop (d + (numTritsMessage - d % numTritsMessage))) (alloc 1)
    generalize apiBundleReadPacketFromMsg T _ _ (alloc 1) = r at hpk ⊢
    obtain ⟨e | packet, ctx'⟩ := r
    · exact ⟨rfl, .refl⟩
    · dsimp only at hpk ⊢
      split_ifs
      · exact ⟨rfl, .refl⟩
      · refine ⟨rfl, .add ⟨⟨tx', List.mem_of_getElem? htx, rfl⟩, ?_⟩⟩
        rw [hpk]
        split_ifs <;> rfl

/-- A packet of a message that is known. -/
theorem readPacket_extends {allowed : List Trit → List Trit → Prop} {api : Api M}
    {ctx : ReadContext} {ord : ℤ} {msgId msg : List Trit} {alloc : ℕ → Bool}
    (hfind : api.readCtxs.find msgId = some ctx) :
    (apiBundleReadPacket T api ctx ord msgId msg alloc).2.trusted = api.trusted ∧
      Extends allowed api.readCtxs
        (apiBundleReadPacket T api ctx ord msgId msg alloc).2.readCtxs := by
  unfold apiBundleReadPacket
  dsimp only
  have hpk := pk_readPacketFromMsg (T := T) (if ord < 0 then { ctx with ord := -ctx.ord } else ctx)
    msg (alloc 1)
  have hctx : (if ord < 0 then { ctx with ord := -ctx.ord } else ctx).pk = ctx.pk := by
    split_ifs <;> rfl
  rw [hctx] at hpk
  generalize apiBundleReadPacketFromMsg T _ _ (alloc 1) = r at hpk ⊢
  obtain ⟨e | packet, ctx'⟩ := r
  · exact ⟨rfl, .assign hfind hpk⟩
  · dsimp only at hpk ⊢
    split_ifs
    · exact ⟨rfl, (Extends.assign hfind hpk).remove⟩
    · exact ⟨rfl, .assign hfind hpk⟩

/-- **A bundle**: the sets of trusted keys grow by what a header announces, and contexts are made
for headers in which somebody trusted speaks. -/
theorem read_extends (api : Api M) (tx : Transaction) (txs : List Transaction) (alloc : ℕ → Bool) :
    (((apiBundleRead T N api tx txs alloc).2.trusted = api.trusted) ∨
      (tagOrd tx.tag = 0 ∧ Grows T tx.address (bundleUnwrap (tx :: txs)) (alloc 0) api.trusted
        (apiBundleRead T N api tx txs alloc).2.trusted)) ∧
      Extends (fun msgId pk => Opens T msgId pk api (.read tx txs alloc)) api.readCtxs
        (apiBundleRead T N api tx txs alloc).2.readCtxs := by
  unfold apiBundleRead
  dsimp only
  split_ifs with h0 hknown
  · exact ⟨.inl rfl, .refl⟩
  · unfold apiBundleReadHeader
    dsimp only
    have hgrows : Grows T tx.address (bundleUnwrap (tx :: txs)) (alloc 0) api.trusted
        (msgReadHeader T N tx.address api.psks api.ntruSks (tx.tag.take msgIdSize) api.trusted
          (alloc 0) (bundleUnwrap (tx :: txs))).2.1 := msgReadHeader_grows
    rcases hread : msgReadHeader T N tx.address api.psks api.ntruSks (tx.tag.take msgIdSize)
      api.trusted (alloc 0) (bundleUnwrap (tx :: txs)) with ⟨e | pk, trusted, t⟩
    · rw [hread] at hgrows
      exact ⟨.inr ⟨h0, hgrows⟩, .refl⟩
    · rw [hread] at hgrows
      have hspeaks := msgReadHeader_speaks hread
      obtain ⟨htrusted, hextends⟩ := readFirst_extends (T := T) { api with trusted }
        ⟨t.state, pk, 1⟩ tx txs ((bundleUnwrap (tx :: txs)).length - t.cells.length) alloc
      dsimp only at htrusted hextends ⊢
      refine ⟨.inr ⟨h0, ?_⟩, fun e he => ?_⟩
      · rw [htrusted]
        exact hgrows
      rcases hextends e he with hold | ⟨htag, hpk⟩
      · exact .inl hold
      · exact .inr ⟨h0, htag, hpk ▸ hspeaks⟩
  · rcases hfind : api.readCtxs.find (tx.tag.take msgIdSize) with _ | ctx
    · exact ⟨.inl rfl, .refl⟩
    · dsimp only
      split_ifs
      · exact ⟨.inl rfl, .refl⟩
      · obtain ⟨htrusted, hextends⟩ := readPacket_extends hfind
        exact ⟨.inl htrusted, hextends⟩

theorem trusted_setMss (api : Api M) (m : Mss M) (ref : MssRef) :
    (api.setMss m ref).trusted = api.trusted := by
  cases ref <;> rfl

theorem readCtxs_setMss (api : Api M) (m : Mss M) (ref : MssRef) :
    (api.setMss m ref).readCtxs = api.readCtxs := by
  cases ref <;> rfl

/-- Writing a header leaves what is read alone. -/
theorem kept_writeHeader (api : Api M) (now : ℕ) (chId : List Trit)
    (epId ch1Id ep1Id : Option (List Trit)) (psks : List Psk) (ntruPks : List (List Trit))
    (msgTypeId : ℤ) (alloc : ℕ → Bool) (bundle : List Transaction) :
    (apiBundleWriteHeader T N api now chId epId ch1Id ep1Id psks ntruPks msgTypeId alloc
        bundle).2.1.trusted = api.trusted ∧
      (apiBundleWriteHeader T N api now chId epId ch1Id ep1Id psks ntruPks msgTypeId alloc
        bundle).2.1.readCtxs = api.readCtxs := by
  unfold apiBundleWriteHeader
  split_ifs
  · exact ⟨rfl, rfl⟩
  · generalize headerArgs api chId epId ch1Id ep1Id = args
    obtain e | ⟨i, j, k, l⟩ := args
    · exact ⟨rfl, rfl⟩
    · dsimp only
      cases api.channels[i]? with
      | none => exact ⟨rfl, rfl⟩
      | some ch =>
        dsimp only
        unfold apiBundleWriteHeaderAt
        dsimp only
        split_ifs
        · exact ⟨rfl, rfl⟩
        all_goals
          generalize msgWriteHeader T N _ _ _ _ _ _ _ _ _ = r
          obtain ⟨e | u, m, t⟩ := r <;> exact ⟨rfl, rfl⟩

/-- Writing a packet leaves what is read alone. -/
theorem kept_writePacket (api : Api M) (now : ℕ) (args : Bool) (msgId payload : List Trit)
    (checksum : Checksum) (isLastPacket : Bool) (alloc : ℕ → Bool) (bundle : List Transaction) :
    (apiBundleWritePacket T api now args msgId payload checksum isLastPacket alloc
        bundle).2.1.trusted = api.trusted ∧
      (apiBundleWritePacket T api now args msgId payload checksum isLastPacket alloc
        bundle).2.1.readCtxs = api.readCtxs := by
  unfold apiBundleWritePacket
  by_cases hargs : args = false
  · rw [if_pos hargs]
    exact ⟨rfl, rfl⟩
  · rw [if_neg hargs]
    rcases api.findWrite msgId with _ | ⟨ctx, m⟩
    · exact ⟨rfl, rfl⟩
    · dsimp only
      by_cases halloc : alloc 0 = false ∨ alloc 1 = false
      · rw [if_pos halloc]
        exact ⟨rfl, rfl⟩
      · rw [if_neg halloc]
        generalize msgWritePacket T _ m checksum payload ⟨ctx.spongos, []⟩ = r
        obtain ⟨e | u, m', t⟩ := r
        · exact ⟨trusted_setMss _ _ _, readCtxs_setMss _ _ _⟩
        · cases isLastPacket <;> exact ⟨trusted_setMss _ _ _, readCtxs_setMss _ _ _⟩

/-- Creating a channel trusts it. -/
theorem channelCreate_grows (api : Api M) (height : ℕ) (alloc : ℕ → Bool) :
    (apiChannelCreate T api height alloc).2.readCtxs = api.readCtxs ∧
      (apiChannelCreate T api height alloc).2.trusted.endpointPks = api.trusted.endpointPks ∧
      ∀ pk ∈ (apiChannelCreate T api height alloc).2.trusted.channelPks,
        pk ∈ api.trusted.channelPks ∨ (apiChannelCreate T api height alloc).1 = .ok pk := by
  unfold apiChannelCreate
  dsimp only
  split_ifs
  · exact ⟨rfl, rfl, fun pk hpk => .inl hpk⟩
  · exact ⟨rfl, rfl, fun pk hpk => .inl hpk⟩
  · exact ⟨rfl, rfl, fun pk hpk => .inl hpk⟩
  · refine ⟨rfl, rfl, fun pk hpk => ?_⟩
    exact (mem_pkSetAdd hpk).imp_right fun hsame => by rw [hsame]

/-- Creating an endpoint trusts it. -/
theorem endpointCreate_grows (api : Api M) (height : ℕ) (channelId : List Trit)
    (alloc : ℕ → Bool) :
    (apiEndpointCreate T api height channelId alloc).2.readCtxs = api.readCtxs ∧
      (apiEndpointCreate T api height channelId alloc).2.trusted.channelPks =
        api.trusted.channelPks ∧
      ∀ pk ∈ (apiEndpointCreate T api height channelId alloc).2.trusted.endpointPks,
        pk ∈ api.trusted.endpointPks ∨
          (apiEndpointCreate T api height channelId alloc).1 = .ok pk := by
  unfold apiEndpointCreate
  cases api.channelGet channelId with
  | none => exact ⟨rfl, rfl, fun pk hpk => .inl hpk⟩
  | some i =>
    dsimp only
    cases api.channels[i]? with
    | none => exact ⟨rfl, rfl, fun pk hpk => .inl hpk⟩
    | some ch =>
      dsimp only
      split_ifs
      · exact ⟨rfl, rfl, fun pk hpk => .inl hpk⟩
      · exact ⟨rfl, rfl, fun pk hpk => .inl hpk⟩
      · exact ⟨rfl, rfl, fun pk hpk => .inl hpk⟩
      · refine ⟨rfl, rfl, fun pk hpk => ?_⟩
        exact (mem_pkSetAdd hpk).imp_right fun hsame => by rw [hsame]

variable {api : Api M} {pk : List Trit}

/-- **One call and the keys of channels.** -/
theorem channelPks_call (c : Call) (hpk : pk ∈ (api.call T N c).trusted.channelPks) :
    pk ∈ api.trusted.channelPks ∨ VouchesChannel T pk api c := by
  cases c with
  | addTrustedChannelPk pk' alloc => exact (mem_pkSetAdd hpk).imp_right Eq.symm
  | addTrustedEndpointPk pk' alloc => exact .inl hpk
  | addNtruSk ntruSk alloc =>
    rw [Api.call, apiAddNtruSk] at hpk
    split_ifs at hpk <;> exact .inl hpk
  | addPsk psk alloc =>
    rw [Api.call, apiAddPsk] at hpk
    split_ifs at hpk <;> exact .inl hpk
  | channelCreate height alloc => exact (channelCreate_grows api height alloc).2.2 pk hpk
  | endpointCreate height channelId alloc =>
    exact .inl ((endpointCreate_grows api height channelId alloc).2.1 ▸ hpk)
  | writeHeader now chId epId ch1Id ep1Id psks ntruPks msgTypeId alloc bundle =>
    rw [Api.call, (kept_writeHeader api _ _ _ _ _ _ _ _ _ _).1] at hpk
    exact .inl hpk
  | writePacket now args msgId payload checksum isLastPacket alloc bundle =>
    rw [Api.call, (kept_writePacket api _ _ _ _ _ _ _ _).1] at hpk
    exact .inl hpk
  | read tx txs alloc =>
    rw [Api.call_read] at hpk
    rcases (read_extends (T := T) (N := N) api tx txs alloc).1 with hsame | ⟨h0, hgrows⟩
    · exact .inl (hsame ▸ hpk)
    · generalize (apiBundleRead T N api tx txs alloc).2.trusted = trusted at hpk hgrows
      cases hgrows with
      | same => exact .inl hpk
      | channel hchid hannounces =>
        refine (mem_pkSetAdd hpk).imp_right fun hsame => ?_
        exact ⟨hchid, h0, hsame ▸ hannounces⟩
      | endpoint hchid hannounces => exact .inl hpk

/-- **One call and the keys of endpoints.** -/
theorem endpointPks_call (c : Call) (hpk : pk ∈ (api.call T N c).trusted.endpointPks) :
    pk ∈ api.trusted.endpointPks ∨ VouchesEndpoint T pk api c := by
  cases c with
  | addTrustedChannelPk pk' alloc => exact .inl hpk
  | addTrustedEndpointPk pk' alloc => exact (mem_pkSetAdd hpk).imp_right Eq.symm
  | addNtruSk ntruSk alloc =>
    rw [Api.call, apiAddNtruSk] at hpk
    split_ifs at hpk <;> exact .inl hpk
  | addPsk psk alloc =>
    rw [Api.call, apiAddPsk] at hpk
    split_ifs at hpk <;> exact .inl hpk
  | channelCreate height alloc =>
    exact .inl ((channelCreate_grows api height alloc).2.1 ▸ hpk)
  | endpointCreate height channelId alloc =>
    exact (endpointCreate_grows api height channelId alloc).2.2 pk hpk
  | writeHeader now chId epId ch1Id ep1Id psks ntruPks msgTypeId alloc bundle =>
    rw [Api.call, (kept_writeHeader api _ _ _ _ _ _ _ _ _ _).1] at hpk
    exact .inl hpk
  | writePacket now args msgId payload checksum isLastPacket alloc bundle =>
    rw [Api.call, (kept_writePacket api _ _ _ _ _ _ _ _).1] at hpk
    exact .inl hpk
  | read tx txs alloc =>
    rw [Api.call_read] at hpk
    rcases (read_extends (T := T) (N := N) api tx txs alloc).1 with hsame | ⟨h0, hgrows⟩
    · exact .inl (hsame ▸ hpk)
    · generalize (apiBundleRead T N api tx txs alloc).2.trusted = trusted at hpk hgrows
      cases hgrows with
      | same => exact .inl hpk
      | channel hchid hannounces => exact .inl hpk
      | endpoint hchid hannounces =>
        refine (mem_pkSetAdd hpk).imp_right fun hsame => ?_
        exact ⟨hchid, h0, hsame ▸ hannounces⟩

/-- **One call and the contexts.** -/
theorem readCtxs_call (api : Api M) (c : Call) :
    Extends (fun msgId pk => Opens T msgId pk api c) api.readCtxs (api.call T N c).readCtxs := by
  cases c with
  | addTrustedChannelPk pk' alloc => exact .refl
  | addTrustedEndpointPk pk' alloc => exact .refl
  | addNtruSk ntruSk alloc =>
    rw [Api.call, apiAddNtruSk]
    split_ifs <;> exact .refl
  | addPsk psk alloc =>
    rw [Api.call, apiAddPsk]
    split_ifs <;> exact .refl
  | channelCreate height alloc =>
    rw [Api.call, (channelCreate_grows api height alloc).1]
    exact .refl
  | endpointCreate height channelId alloc =>
    rw [Api.call, (endpointCreate_grows api height channelId alloc).1]
    exact .refl
  | writeHeader now chId epId ch1Id ep1Id psks ntruPks msgTypeId alloc bundle =>
    rw [Api.call, (kept_writeHeader api _ _ _ _ _ _ _ _ _ _).2]
    exact .refl
  | writePacket now args msgId payload checksum isLastPacket alloc bundle =>
    rw [Api.call, (kept_writePacket api _ _ _ _ _ _ _ _).2]
    exact .refl
  | read tx txs alloc => exact (read_extends api tx txs alloc).2

end Calls

/-! ## Runs -/

section Runs

variable {T : Troika} {N : Ntru} {M : MerkleMode}

/-- What the calls leave, one after the other. -/
def Api.run (T : Troika) (N : Ntru) (api : Api M) (cs : List Call) : Api M :=
  cs.foldl (Api.call T N) api

/-- The states that are reached are what is left by calls from the start. -/
theorem reached_iff_run {api : Api M} :
    Reached T N (fun _ _ => True) api ↔ ∃ prng cs, api = (Api.init prng).run T N cs := by
  constructor
  · intro hreached
    induction hreached with
    | init prng => exact ⟨prng, [], rfl⟩
    | @call api c hreached hok ih =>
      obtain ⟨prng, cs, rfl⟩ := ih
      exact ⟨prng, cs ++ [c], by rw [Api.run, Api.run, List.foldl_concat]⟩
  · rintro ⟨prng, cs, rfl⟩
    induction cs using List.reverseRecOn with
    | nil => exact .init prng
    | append_singleton cs c ih =>
      rw [Api.run, List.foldl_concat]
      exact ih.call trivial

/-- Among the calls is one with a property, which may look at the state it is made in. -/
def Happened (T : Troika) (N : Ntru) (api : Api M) (cs : List Call) (P : Api M → Call → Prop) :
    Prop :=
  ∃ before c after, cs = before ++ c :: after ∧ P (api.run T N before) c

/-- **What no state starts with** and only a call with a property brings about, has such a call
behind it. -/
theorem happened_of_run {api : Api M} {Q : Api M → Prop} {P : Api M → Call → Prop}
    (hinit : ¬ Q api) (hcall : ∀ api c, Q (api.call T N c) → Q api ∨ P api c) {cs : List Call}
    (hrun : Q (api.run T N cs)) : Happened T N api cs P := by
  induction cs using List.reverseRecOn with
  | nil => exact absurd hrun hinit
  | append_singleton cs c ih =>
    rw [Api.run, List.foldl_concat] at hrun
    rcases hcall _ c hrun with hbefore | hnow
    · obtain ⟨before, c', after, rfl, hP⟩ := ih hbefore
      exact ⟨before, c', after ++ [c], by simp, hP⟩
    · exact ⟨cs, c, [], rfl, hnow⟩

/-- **Trust is delegated by trusted signatures only.** After any calls, every key of a channel or of
an endpoint that is trusted was added or created, or announced in a header that is signed under the
key of a channel trusted before, and every context was made for a header of a trusted channel in
which it, an endpoint trusted before or whom it announces speaks. -/
theorem trust_is_delegated (T : Troika) (N : Ntru) (prng : List Trit) (cs : List Call) :
    (∀ pk ∈ ((Api.init prng : Api M).run T N cs).trusted.channelPks,
      Happened T N (Api.init prng : Api M) cs (VouchesChannel T pk)) ∧
    (∀ pk ∈ ((Api.init prng : Api M).run T N cs).trusted.endpointPks,
      Happened T N (Api.init prng : Api M) cs (VouchesEndpoint T pk)) ∧
    ∀ e ∈ ((Api.init prng : Api M).run T N cs).readCtxs,
      Happened T N (Api.init prng : Api M) cs (Opens T e.1 e.2.pk) := by
  refine ⟨fun pk hpk => ?_, fun pk hpk => ?_, fun e he => ?_⟩
  · exact happened_of_run (Q := fun api => pk ∈ api.trusted.channelPks) List.not_mem_nil
      (fun api c => channelPks_call c) hpk
  · exact happened_of_run (Q := fun api => pk ∈ api.trusted.endpointPks) List.not_mem_nil
      (fun api c => endpointPks_call c) hpk
  · refine happened_of_run (Q := fun api => ∃ e' ∈ api.readCtxs, e'.1 = e.1 ∧ e'.2.pk = e.2.pk)
      (fun ⟨e', he', _⟩ => absurd he' List.not_mem_nil) (fun api c => ?_) ⟨e, he, rfl, rfl⟩
    rintro ⟨e', he', hid, hpk⟩
    rw [← hid, ← hpk]
    exact readCtxs_call api c e' he'

end Runs

end Mam

end Entangled
