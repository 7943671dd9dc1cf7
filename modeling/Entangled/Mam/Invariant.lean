import Entangled.Mam.Delivery
/-!
# What a writer keeps

Every key tree of a node is what `mam_mss_gen` and `mam_mss_next` made of it, and the spongos of
every message that is being written was committed and its number is that of the next packet. The
calls of the library keep this, but for a signed packet of a message whose key tree has no key left:
`mam_api_bundle_write_packet` negates the number before, and has absorbed the packet by then.
-/

namespace Entangled

namespace Mam

open Spongos

variable {T : Troika} {N : Ntru} {M : MerkleMode}

/-! ## Key trees in their places -/

theorem mem_modify {α : Type} {l : List α} {i : ℕ} {f : α → α} {y : α} (hy : y ∈ l.modify i f) :
    y ∈ l ∨ ∃ x ∈ l, y = f x := by
  obtain ⟨j, hj⟩ := List.mem_iff_getElem?.mp hy
  rw [List.getElem?_modify] at hj
  split_ifs at hj
  · obtain ⟨x, hx, rfl⟩ := Option.map_eq_some_iff.mp hj
    exact .inr ⟨x, List.mem_of_getElem? hx, rfl⟩
  · exact .inl (List.mem_of_getElem? (by simpa using hj))

/-- The key trees of a channel are sound. -/
structure Channel.Sound (T : Troika) (ch : Channel M) : Prop where
  mss : ch.mss.Sound T
  endpoints : ∀ ep ∈ ch.endpoints, ep.mss.Sound T

/-- Every key tree is sound. -/
def Api.Sound (T : Troika) (api : Api M) : Prop := ∀ ch ∈ api.channels, ch.Sound T

/-- A message that waits for its next packet. -/
structure WriteContext.Waiting (ctx : WriteContext) : Prop where
  committed : ctx.spongos.pos = 0
  ord_pos : 0 < ctx.ord

/-- Every message waits for its next packet. -/
def Api.Waiting (api : Api M) : Prop := ∀ e ∈ api.writeCtxs, e.2.Waiting

namespace Api

variable {api : Api M} {r r' : MssRef} {m m' : Mss M}

theorem Sound.mss (hsound : api.Sound T) (hm : api.mss r = some m) : m.Sound T := by
  cases r with
  | channel i =>
    obtain ⟨ch, hch, rfl⟩ := Option.map_eq_some_iff.mp hm
    exact (hsound ch (List.mem_of_getElem? hch)).mss
  | endpoint i j =>
    obtain ⟨ep, hep, rfl⟩ := Option.map_eq_some_iff.mp hm
    obtain ⟨ch, hch, hep⟩ := Option.bind_eq_some_iff.mp hep
    exact (hsound ch (List.mem_of_getElem? hch)).endpoints ep (List.mem_of_getElem? hep)

/-- A sound tree in the place of another. -/
theorem Sound.setMss (hsound : api.Sound T) (hm : m.Sound T) (r : MssRef) :
    (api.setMss m r).Sound T := by
  intro ch hch
  cases r with
  | channel i =>
    rcases mem_modify hch with hch | ⟨old, hold, rfl⟩
    · exact hsound ch hch
    · exact ⟨hm, (hsound old hold).endpoints⟩
  | endpoint i j =>
    rcases mem_modify hch with hch | ⟨old, hold, rfl⟩
    · exact hsound ch hch
    · refine ⟨(hsound old hold).mss, fun ep hep => ?_⟩
      rcases mem_modify hep with hep | ⟨oldEp, holdEp, rfl⟩
      · exact (hsound old hold).endpoints ep hep
      · exact hm

theorem writeCtxs_setMss (r : MssRef) : (api.setMss m r).writeCtxs = api.writeCtxs := by
  cases r <;> rfl

theorem mss_setMss (hm : api.mss r = some m') : (api.setMss m r).mss r = some m := by
  cases r with
  | channel i =>
    obtain ⟨ch, hch, rfl⟩ := Option.map_eq_some_iff.mp hm
    simp [Api.mss, Api.setMss, hch]
  | endpoint i j =>
    obtain ⟨ep, hep, rfl⟩ := Option.map_eq_some_iff.mp hm
    obtain ⟨ch, hch, hep⟩ := Option.bind_eq_some_iff.mp hep
    simp [Api.mss, Api.setMss, hch, hep]

theorem mss_setMss_of_ne (hr : r ≠ r') : (api.setMss m r).mss r' = api.mss r' := by
  cases r with
  | channel i =>
    cases r' with
    | channel i' =>
      have hi : i ≠ i' := fun h => hr (h ▸ rfl)
      simp [Api.mss, Api.setMss, hi]
    | endpoint i' j' =>
      by_cases hi : i = i' <;> simp [Api.mss, Api.setMss, hi, Option.bind_map]
  | endpoint i j =>
    cases r' with
    | channel i' => by_cases hi : i = i' <;> simp [Api.mss, Api.setMss, hi, Function.comp_def]
    | endpoint i' j' =>
      by_cases hi : i = i'
      · subst hi
        have hj : j ≠ j' := fun h => hr (h ▸ rfl)
        simp [Api.mss, Api.setMss, hj, Option.bind_map]
      · simp [Api.mss, Api.setMss, hi]

end Api

/-! ## Contexts in their places -/

namespace CtxMap

variable {κ α : Type} [DecidableEq κ] {map : CtxMap κ α} {k : κ} {v : α} {e : κ × α}

theorem mem_of_find (hk : find map k = some v) : (k, v) ∈ map := by
  induction map with
  | nil => simp at hk
  | cons e map ih =>
    obtain ⟨l, w⟩ := e
    rw [find_cons] at hk
    by_cases h : l = k
    · rw [if_pos h] at hk
      rw [h, Option.some.inj hk]
      exact List.mem_cons_self
    · rw [if_neg h] at hk
      exact List.mem_cons_of_mem _ (ih hk)

theorem mem_assign (he : e ∈ assign map k v) : e ∈ map ∨ e = (k, v) := by
  induction map with
  | nil => exact (nomatch he)
  | cons e' map ih =>
    rw [assign] at he
    split_ifs at he
    · rcases List.mem_cons.mp he with rfl | he
      · exact .inr rfl
      · exact .inl (List.mem_cons_of_mem _ he)
    · rcases List.mem_cons.mp he with rfl | he
      · exact .inl List.mem_cons_self
      · exact (ih he).imp (List.mem_cons_of_mem _) id

theorem mem_remove (he : e ∈ remove map k) : e ∈ map := List.eraseP_subset he

/-- What was changed is what is removed. -/
theorem remove_assign : remove (assign map k v) k = remove map k := by
  induction map with
  | nil => rfl
  | cons e' map ih =>
    unfold remove at ih ⊢
    rw [assign]
    split_ifs with h
    · rw [List.eraseP_cons, List.eraseP_cons]
      simp [h]
    · rw [List.eraseP_cons, List.eraseP_cons, ih]
      simp [h]

end CtxMap

/-! ## Writing a packet -/

/-- A call of `mam_api_bundle_write_packet`. -/
structure WriteCall where
  now : ℕ
  args : Bool
  msgId : List Trit
  payload : List Trit
  checksum : Checksum
  isLastPacket : Bool
  alloc : ℕ → Bool
  bundle : List Transaction

/-- What is written. -/
def Api.write (T : Troika) (api : Api M) (c : WriteCall) :
    Except Error Unit × Api M × List Transaction :=
  apiBundleWritePacket T api c.now c.args c.msgId c.payload c.checksum c.isLastPacket c.alloc
    c.bundle

/-- Everything is there for the packet to be written, but for a key to sign it with. -/
structure Writable (api : Api M) (c : WriteCall) (ctx : WriteContext) (m : Mss M) : Prop where
  args : c.args = true
  found : api.findWrite c.msgId = some (ctx, m)
  memory : c.alloc 0 = true ∧ c.alloc 1 = true

/-- The packet is to be signed and no key is left. -/
def Exhausted (api : Api M) (c : WriteCall) : Prop :=
  ∃ ctx m, Writable api c ctx m ∧ c.checksum = .sig ∧ mssRemainingSks m = 0

section Write

variable {api : Api M} {c : WriteCall} {ctx : WriteContext} {m : Mss M}

/-- The number a packet is written with. -/
def WriteCall.ord (c : WriteCall) (ctx : WriteContext) : ℤ :=
  if c.isLastPacket then -ctx.ord else ctx.ord

/-- What the packet is in trits, and the spongos behind it. -/
def WriteCall.packet (T : Troika) (c : WriteCall) (ctx : WriteContext) (m : Mss M) : Wire :=
  wrapPacket T (c.ord ctx) m c.checksum c.payload ⟨ctx.spongos, []⟩

/-- What is left of the message. -/
def writeCtxsAfter (T : Troika) (api : Api M) (c : WriteCall) (ctx : WriteContext) (m : Mss M) :
    CtxMap (List Trit) WriteContext :=
  let map := api.writeCtxs.assign c.msgId { ctx with
    spongos := (c.packet T ctx m).state
    ord := if c.isLastPacket then c.ord ctx else c.ord ctx + 1 }
  if c.isLastPacket then map.remove c.msgId else map

theorem findWrite_eq {msgId : List Trit} (hfound : api.findWrite msgId = some (ctx, m)) :
    api.writeCtxs.find msgId = some ctx ∧ api.mss ctx.mss = some m := by
  unfold Api.findWrite at hfound
  cases hctx : api.writeCtxs.find msgId with
  | none =>
    rw [hctx] at hfound
    exact nomatch hfound
  | some ctx' =>
    rw [hctx] at hfound
    cases hm : api.mss ctx'.mss with
    | none =>
      simp [hm] at hfound
    | some m' =>
      simp [hm] at hfound
      obtain ⟨rfl, rfl⟩ := hfound
      exact ⟨rfl, hm⟩

/-- **A packet that can be written** is. -/
theorem write_ok (hw : Writable api c ctx m) (hleft : c.checksum = .sig → mssRemainingSks m ≠ 0) :
    api.write T c =
      (.ok (), { api.setMss (mssAfter T m c.checksum) ctx.mss with
        writeCtxs := writeCtxsAfter T api c ctx m },
        bundleWrap c.now ctx.chid (writeTag c.msgId (c.ord ctx)) (c.packet T ctx m).cells
          c.bundle) := by
  obtain ⟨h0, h1⟩ := hw.memory
  unfold Api.write apiBundleWritePacket
  rw [if_neg (by rw [hw.args]; simp), hw.found]
  dsimp only
  rw [if_neg (by rw [h0, h1]; simp), msgWritePacket_eq hleft]
  dsimp only
  rw [Api.writeCtxs_setMss]
  unfold writeCtxsAfter WriteCall.packet WriteCall.ord
  cases c.isLastPacket <;> rfl

/-- Where the spongos is when there is no key to sign with. -/
theorem msgWritePacket_exhausted (hleft : mssRemainingSks m = 0) (ord : ℤ) (payload : List Trit)
    (t : Wire) :
    ∃ t', msgWritePacket T ord m .sig payload t = (.error .mssExhausted, m, t') ∧
      t'.state.pos =
        (wotsHashSize + (encodeSizeT (mssSigSize m.height / 3)).length) % spongeRate := by
  have hsign : ∀ mac, mssSignAndNext T m mac = (.error .mssExhausted, m) := by
    intro mac
    rw [mssSignAndNext, mssSign, if_pos hleft]
  have hwrap : ∀ t, ∃ t', msgWrapMssig T m t = (.error .mssExhausted, m, t') ∧ t'.state.pos =
      (wotsHashSize + (encodeSizeT (mssSigSize m.height / 3)).length) % spongeRate := by
    intro t
    simp only [msgWrapMssig, hsign]
    refine ⟨_, rfl, ?_⟩
    show (absorb T _ _).pos = _
    rw [pos_absorb, pos_squeeze, pos_commit, Nat.zero_add, Nat.mod_add_mod]
  obtain ⟨t', ht', hpos⟩ := hwrap (pb3WrapAbsorbTryte T Checksum.sig.code
    (pb3WrapCryptNtrytes T payload (pb3WrapAbsorbSizeT T (payload.length / 3)
      (t.modify (absorb T · (put18 ord))))))
  exact ⟨t', by simp only [msgWritePacket, ht'], hpos⟩

/-- **A packet that cannot be signed** leaves the message with what was absorbed. -/
theorem write_exhausted (hw : Writable api c ctx m) (hsig : c.checksum = .sig)
    (hleft : mssRemainingSks m = 0) :
    ∃ s, s.pos = (wotsHashSize + (encodeSizeT (mssSigSize m.height / 3)).length) % spongeRate ∧
      api.write T c = (.error .mssExhausted, { api.setMss m ctx.mss with
        writeCtxs := api.writeCtxs.assign c.msgId { ctx with spongos := s, ord := c.ord ctx } },
        c.bundle) := by
  obtain ⟨h0, h1⟩ := hw.memory
  obtain ⟨t, ht, hpos⟩ := msgWritePacket_exhausted (T := T) hleft (c.ord ctx) c.payload
    ⟨ctx.spongos, []⟩
  have hwrite : api.write T c = (.error .mssExhausted, { api.setMss m ctx.mss with
      writeCtxs := api.writeCtxs.assign c.msgId { ctx with spongos := t.state, ord := c.ord ctx } },
      c.bundle) := by
    unfold WriteCall.ord at ht
    unfold Api.write apiBundleWritePacket
    rw [if_neg (by rw [hw.args]; simp), hw.found]
    dsimp only
    rw [if_neg (by rw [h0, h1]; simp), hsig, ht]
    dsimp only
    rw [Api.writeCtxs_setMss]
    rfl
  exact ⟨t.state, hpos, hwrite⟩

/-- **What is refused before anything is written** leaves everything as it was. -/
theorem write_refused (hnot : ¬ ∃ ctx m, Writable api c ctx m) :
    ∃ e, api.write T c = (.error e, api, c.bundle) := by
  unfold Api.write apiBundleWritePacket
  by_cases hargs : c.args = false
  · exact ⟨_, if_pos hargs⟩
  rw [if_neg hargs]
  cases hfound : api.findWrite c.msgId with
  | none => exact ⟨_, rfl⟩
  | some found =>
    dsimp only
    by_cases halloc : c.alloc 0 = false ∨ c.alloc 1 = false
    · exact ⟨_, if_pos halloc⟩
    · rw [not_or, Bool.not_eq_false, Bool.not_eq_false] at halloc
      exact absurd ⟨found.1, found.2, by simpa using hargs, hfound, halloc⟩ hnot

/-- The three ways a call goes. -/
theorem write_cases (api : Api M) (c : WriteCall) :
    (∃ ctx m, Writable api c ctx m ∧ (c.checksum = .sig → mssRemainingSks m ≠ 0)) ∨
      Exhausted api c ∨ ¬ ∃ ctx m, Writable api c ctx m := by
  by_cases hw : ∃ ctx m, Writable api c ctx m
  · obtain ⟨ctx, m, hw⟩ := hw
    by_cases hleft : c.checksum = .sig → mssRemainingSks m ≠ 0
    · exact .inl ⟨ctx, m, hw, hleft⟩
    · rw [Classical.not_imp, not_not] at hleft
      exact .inr (.inl ⟨ctx, m, hw, hleft⟩)
  · exact .inr (.inr hw)

end Write

/-! ## Every call -/

section Calls

variable {api : Api M} {m : Mss M}

theorem sound_msgWrapMssig (hm : m.Sound T) (t : Wire) : (msgWrapMssig T m t).2.1.Sound T := by
  unfold msgWrapMssig mssSignAndNext
  dsimp only
  cases mssSign T m (squeeze T (commit T t.state) wotsHashSize).1 with
  | ok sig => exact hm.next
  | error e => exact hm

theorem sound_msgWriteHeader {ch : Channel M} (N : Ntru) (prng msgId : List Trit)
    (ep : Option (Endpoint M)) (ch1 : Option (Channel M)) (ep1 : Option (Endpoint M)) (msgTypeId : ℤ)
    (psks : List Psk) (ntruPks : List (List Trit)) (hch : ch.mss.Sound T) :
    (msgWriteHeader T N prng ch ep ch1 ep1 msgId msgTypeId psks ntruPks).2.1.Sound T := by
  have hpubkey : ∀ t, (msgWrapPubkey T ch ep ch1 ep1 t).2.1.Sound T := by
    intro t
    unfold msgWrapPubkey msgWrapSignedid
    cases ch1 with
    | some ch1 => exact sound_msgWrapMssig hch _
    | none =>
      cases ep1 with
      | some ep1 => exact sound_msgWrapMssig hch _
      | none => cases ep <;> exact hch
  have hthis := hpubkey (msgChannelWrap T 0 ch.mss.root ⟨init, []⟩)
  unfold msgWriteHeader
  dsimp only
  generalize msgWrapPubkey T ch ep ch1 ep1 (msgChannelWrap T 0 ch.mss.root ⟨init, []⟩) = r at hthis ⊢
  obtain ⟨e | u, m, t⟩ := r <;> exact hthis

theorem sound_mssAfter (hm : m.Sound T) (checksum : Checksum) :
    (mssAfter T m checksum).Sound T := by
  cases checksum with
  | none => exact hm
  | mac => exact hm
  | sig => exact hm.next

theorem Api.Sound.write (hsound : api.Sound T) (c : WriteCall) : (api.write T c).2.1.Sound T := by
  rcases write_cases api c with ⟨ctx, m, hw, hleft⟩ | ⟨ctx, m, hw, hsig, hleft⟩ | hnot
  · rw [write_ok hw hleft]
    exact hsound.setMss (sound_mssAfter (hsound.mss (findWrite_eq hw.found).2) c.checksum) ctx.mss
  · obtain ⟨s, -, hs⟩ := write_exhausted (T := T) hw hsig hleft
    rw [hs]
    exact hsound.setMss (hsound.mss (findWrite_eq hw.found).2) ctx.mss
  · obtain ⟨e, he⟩ := write_refused (T := T) hnot
    rw [he]
    exact hsound

theorem Api.Waiting.write {c : WriteCall} (hwait : api.Waiting) (hc : ¬ Exhausted api c) :
    (api.write T c).2.1.Waiting := by
  rcases write_cases api c with ⟨ctx, m, hw, hleft⟩ | hex | hnot
  · have hmem := CtxMap.mem_of_find (findWrite_eq hw.found).1
    have hafter : ∀ e ∈ writeCtxsAfter T api c ctx m, e.2.Waiting := by
      intro e he
      unfold writeCtxsAfter at he
      cases hlast : c.isLastPacket with
      | true =>
        rw [hlast, if_pos rfl, CtxMap.remove_assign] at he
        exact hwait e (CtxMap.mem_remove he)
      | false =>
        have hord : c.ord ctx = ctx.ord := by rw [WriteCall.ord, hlast]; rfl
        have hpos := (hwait _ hmem).ord_pos
        rw [hlast, if_neg Bool.false_ne_true, if_neg Bool.false_ne_true, hord] at he
        rcases CtxMap.mem_assign he with hold | rfl
        · exact hwait e hold
        · exact ⟨pos_commit _, by simp only at hpos ⊢; omega⟩
    rw [write_ok hw hleft]
    exact hafter
  · exact absurd hex hc
  · obtain ⟨e, he⟩ := write_refused (T := T) hnot
    rw [he]
    exact hwait

/-- The spongos behind a header is committed. -/
theorem pos_msgWriteHeader {prng msgId : List Trit} {ch : Channel M} {ep : Option (Endpoint M)}
    {ch1 : Option (Channel M)} {ep1 : Option (Endpoint M)} {msgTypeId : ℤ} {psks : List Psk}
    {ntruPks : List (List Trit)} {t : Wire}
    (hr : msgWriteHeader T N prng ch ep ch1 ep1 msgId msgTypeId psks ntruPks = (.ok (), m, t)) :
    t.state.pos = 0 := by
  unfold msgWriteHeader at hr
  dsimp only at hr
  generalize msgWrapPubkey T ch ep ch1 ep1 (msgChannelWrap T 0 ch.mss.root ⟨init, []⟩) = r at hr
  obtain ⟨e | u, m', t'⟩ := r
  · exact nomatch hr
  · obtain rfl := (Prod.mk.inj (Prod.mk.inj hr).2).2
    exact pos_commit _

/-- Channels changed without their key trees. -/
theorem Api.Sound.modify (hsound : api.Sound T) (i : ℕ) {f : Channel M → Channel M}
    (hf : ∀ ch, ch.Sound T → (f ch).Sound T) :
    Api.Sound T { api with channels := api.channels.modify i f } := by
  intro ch hch
  rcases mem_modify hch with hch | ⟨old, hold, rfl⟩
  · exact hsound ch hch
  · exact hf old (hsound old hold)

theorem Api.Sound.writeHeaderAt {i : ℕ} {ch : Channel M} (hsound : api.Sound T)
    (hch : ch.mss.Sound T) (now : ℕ) (ep : Option (Endpoint M)) (ch1 : Option (Channel M))
    (ep1 : Option (Endpoint M)) (ref : MssRef) (psks : List Psk) (ntruPks : List (List Trit))
    (msgTypeId : ℤ) (alloc : ℕ → Bool) (bundle : List Transaction) :
    (apiBundleWriteHeaderAt T N api now i ch ep ch1 ep1 ref psks ntruPks msgTypeId alloc
      bundle).2.1.Sound T := by
  have hcounted := hsound.modify i
    (f := fun ch => { ch with msgOrd := Trit.ofInts (addAssign (Trit.toInts ch.msgOrd) 1) })
    fun ch hch => ⟨hch.mss, hch.endpoints⟩
  have hm := sound_msgWriteHeader N api.prng (msgIdOf T ch) ep ch1 ep1 msgTypeId psks ntruPks hch
  unfold apiBundleWriteHeaderAt
  dsimp only
  by_cases halloc : alloc 0 = false
  · rw [if_pos halloc]
    exact hcounted
  rw [if_neg halloc]
  generalize msgWriteHeader T N api.prng ch _ _ _ (msgIdOf T ch) msgTypeId psks ntruPks = r at hm ⊢
  obtain ⟨e | u, m, t⟩ := r
  · exact hcounted.setMss hm (.channel i)
  · have hwritten := hcounted.setMss hm (.channel i)
    dsimp only at hwritten ⊢
    split_ifs <;> exact hwritten

theorem Api.Waiting.writeHeaderAt {i : ℕ} {ch : Channel M} (hwait : api.Waiting) (now : ℕ)
    (ep : Option (Endpoint M)) (ch1 : Option (Channel M)) (ep1 : Option (Endpoint M)) (ref : MssRef)
    (psks : List Psk) (ntruPks : List (List Trit)) (msgTypeId : ℤ) (alloc : ℕ → Bool)
    (bundle : List Transaction) :
    (apiBundleWriteHeaderAt T N api now i ch ep ch1 ep1 ref psks ntruPks msgTypeId alloc
      bundle).2.1.Waiting := by
  unfold apiBundleWriteHeaderAt
  dsimp only
  by_cases halloc : alloc 0 = false
  · rw [if_pos halloc]
    exact hwait
  rw [if_neg halloc]
  generalize hr : msgWriteHeader T N api.prng ch _ _ _ (msgIdOf T ch) msgTypeId psks ntruPks = r
  obtain ⟨e | u, m, t⟩ := r
  · exact hwait
  · dsimp only
    split_ifs
    · exact hwait
    · intro e he
      rcases List.mem_cons.mp he with rfl | he
      · exact ⟨pos_msgWriteHeader hr, Int.one_pos⟩
      · exact hwait e he

/-- What a header that is written leaves, the part behind the look-ups leaves. -/
theorem writeHeader_cases {P : Api M → Prop} (now : ℕ) (chId : List Trit)
    (epId ch1Id ep1Id : Option (List Trit)) (psks : List Psk) (ntruPks : List (List Trit))
    (msgTypeId : ℤ) (alloc : ℕ → Bool) (bundle : List Transaction) (hapi : P api)
    (hat : ∀ i ch ep ch1 ep1 ref, api.channels[i]? = some ch → P (apiBundleWriteHeaderAt T N api now
      i ch ep ch1 ep1 ref psks ntruPks msgTypeId alloc bundle).2.1) :
    P (apiBundleWriteHeader T N api now chId epId ch1Id ep1Id psks ntruPks msgTypeId alloc
      bundle).2.1 := by
  unfold apiBundleWriteHeader
  by_cases hbundle : bundle ≠ []
  · rw [if_pos hbundle]
    exact hapi
  rw [if_neg hbundle]
  cases headerArgs api chId epId ch1Id ep1Id with
  | error e => exact hapi
  | ok places =>
    obtain ⟨i, j, k, l⟩ := places
    cases hch : api.channels[i]? with
    | none =>
      simp only [hch]
      exact hapi
    | some ch =>
      simp only [hch]
      exact hat i ch _ _ _ _ hch

theorem Api.Sound.channelCreate (hsound : api.Sound T) (height : ℕ) (alloc : ℕ → Bool) :
    (apiChannelCreate T api height alloc).2.Sound T := by
  unfold apiChannelCreate
  by_cases hheight : mssMaxD < height
  · rw [if_pos hheight]
    exact hsound
  rw [if_neg hheight]
  have hadded : Api.Sound T { api with
      channels := api.channels ++ [Mam.channelCreate T api.prng height (put18 api.channelOrd)] } := by
    intro ch hch
    rcases List.mem_append.mp hch with hch | hch
    · exact hsound ch hch
    · obtain rfl := List.mem_singleton.mp hch
      exact ⟨sound_mssCreate _ (not_lt.mp hheight) _, fun ep hep => absurd hep List.not_mem_nil⟩
  dsimp only
  split_ifs
  · exact hsound
  · exact hadded
  · exact hadded

theorem Api.Sound.endpointCreate (hsound : api.Sound T) (height : ℕ) (channelId : List Trit)
    (alloc : ℕ → Bool) : (apiEndpointCreate T api height channelId alloc).2.Sound T := by
  unfold apiEndpointCreate
  cases api.channelGet channelId with
  | none => exact hsound
  | some i =>
    cases hch : api.channels[i]? with
    | none =>
      simp only [hch]
      exact hsound
    | some ch =>
      simp only [hch]
      by_cases hheight : mssMaxD < height
      · rw [if_pos hheight]
        exact hsound
      rw [if_neg hheight]
      have hadded := hsound.modify i (f := fun c => { c with endpoints := c.endpoints ++
          [Mam.endpointCreate T api.prng height ch.nameSize ch.name (put18 ch.endpointOrd)] })
        fun c hc => ⟨hc.mss, fun ep hep => by
          rcases List.mem_append.mp hep with hep | hep
          · exact hc.endpoints ep hep
          · obtain rfl := List.mem_singleton.mp hep
            exact sound_mssCreate _ (not_lt.mp hheight) _⟩
      have hcounted := hadded.modify i (f := fun c => { c with endpointOrd := c.endpointOrd + 1 })
        fun c hc => ⟨hc.mss, hc.endpoints⟩
      split_ifs
      · exact hsound
      · exact hadded
      · exact hcounted

/-- Reading leaves what is written alone. -/
theorem kept_read (api : Api M) (c : ReadCall) : (api.read T N c).2.channels = api.channels ∧
    (api.read T N c).2.writeCtxs = api.writeCtxs := by
  unfold Api.read apiBundleRead
  dsimp only
  split_ifs
  · exact ⟨rfl, rfl⟩
  · unfold apiBundleReadHeader
    dsimp only
    generalize msgReadHeader T N _ _ _ _ _ _ _ = r
    obtain ⟨e | pk, trusted, t⟩ := r
    · exact ⟨rfl, rfl⟩
    · unfold apiBundleReadFirst
      dsimp only
      generalize (c.tx :: c.txs)[(_ : ℕ)]? = tx
      cases tx with
      | none => dsimp only; split_ifs <;> exact ⟨rfl, rfl⟩
      | some tx =>
        dsimp only
        generalize apiBundleReadPacketFromMsg T _ _ (c.alloc 1) = r
        obtain ⟨e | packet, ctx⟩ := r
        · exact ⟨rfl, rfl⟩
        · dsimp only
          split_ifs <;> exact ⟨rfl, rfl⟩
  · cases api.readCtxs.find (c.tx.tag.take msgIdSize) with
    | none => exact ⟨rfl, rfl⟩
    | some ctx =>
      dsimp only
      split_ifs
      · exact ⟨rfl, rfl⟩
      · unfold apiBundleReadPacket
        dsimp only
        generalize apiBundleReadPacketFromMsg T _ _ (c.alloc 1) = r
        obtain ⟨e | packet, ctx⟩ := r
        · exact ⟨rfl, rfl⟩
        · dsimp only
          split_ifs <;> exact ⟨rfl, rfl⟩

/-- **In every state that is reached** the key trees are sound. -/
theorem Reached.sound {ok : Api M → Call → Prop} (hreached : Reached T N ok api) :
    api.Sound T := by
  induction hreached with
  | init prng => exact fun ch hch => absurd hch List.not_mem_nil
  | call _ _ ih =>
    rename_i api c _ _
    cases c with
    | addTrustedChannelPk pk alloc => exact ih
    | addTrustedEndpointPk pk alloc => exact ih
    | addNtruSk ntruSk alloc =>
      show (apiAddNtruSk api ntruSk alloc).Sound T
      unfold apiAddNtruSk
      split_ifs <;> exact ih
    | addPsk psk alloc =>
      show (apiAddPsk api psk alloc).Sound T
      unfold apiAddPsk
      split_ifs <;> exact ih
    | channelCreate height alloc => exact ih.channelCreate height alloc
    | endpointCreate height channelId alloc => exact ih.endpointCreate height channelId alloc
    | writeHeader now chId epId ch1Id ep1Id psks ntruPks msgTypeId alloc bundle =>
      exact writeHeader_cases _ _ _ _ _ _ _ _ _ _ ih fun i ch _ _ _ _ hch =>
        ih.writeHeaderAt (ih ch (List.mem_of_getElem? hch)).mss _ _ _ _ _ _ _ _ _ _
    | writePacket now args msgId payload checksum isLastPacket alloc bundle =>
      exact ih.write ⟨now, args, msgId, payload, checksum, isLastPacket, alloc, bundle⟩
    | read tx txs alloc =>
      have hkept := (kept_read (T := T) (N := N) api ⟨tx, txs, alloc⟩).1
      exact fun ch hch => ih ch (hkept ▸ hch)

/-- A call that writes no packet that is to be signed with a key that is not there. -/
def Tame (api : Api M) : Call → Prop
  | .writePacket now args msgId payload checksum isLastPacket alloc bundle =>
    ¬ Exhausted api ⟨now, args, msgId, payload, checksum, isLastPacket, alloc, bundle⟩
  | _ => True

/-- **In every state that tame calls reach** every message waits for its next packet. -/
theorem Reached.waiting (hreached : Reached T N Tame api) : api.Waiting := by
  induction hreached with
  | init prng => exact fun e he => absurd he List.not_mem_nil
  | call _ htame ih =>
    rename_i api c _
    cases c with
    | addTrustedChannelPk pk alloc => exact ih
    | addTrustedEndpointPk pk alloc => exact ih
    | addNtruSk ntruSk alloc =>
      show (apiAddNtruSk api ntruSk alloc).Waiting
      unfold apiAddNtruSk
      split_ifs <;> exact ih
    | addPsk psk alloc =>
      show (apiAddPsk api psk alloc).Waiting
      unfold apiAddPsk
      split_ifs <;> exact ih
    | channelCreate height alloc =>
      show (apiChannelCreate T api height alloc).2.Waiting
      unfold apiChannelCreate
      dsimp only
      split_ifs <;> exact ih
    | endpointCreate height channelId alloc =>
      show (apiEndpointCreate T api height channelId alloc).2.Waiting
      unfold apiEndpointCreate
      cases api.channelGet channelId with
      | none => exact ih
      | some i =>
        cases hch : api.channels[i]? with
        | none =>
          simp only [hch]
          exact ih
        | some ch =>
          simp only [hch]
          split_ifs <;> exact ih
    | writeHeader now chId epId ch1Id ep1Id psks ntruPks msgTypeId alloc bundle =>
      exact writeHeader_cases _ _ _ _ _ _ _ _ _ _ ih fun i ch _ _ _ _ _ =>
        ih.writeHeaderAt _ _ _ _ _ _ _ _ _ _
    | writePacket now args msgId payload checksum isLastPacket alloc bundle => exact ih.write htame
    | read tx txs alloc =>
      have hkept := (kept_read (T := T) (N := N) api ⟨tx, txs, alloc⟩).2
      exact fun e he => ih e (hkept ▸ he)

end Calls

end Mam

end Entangled
