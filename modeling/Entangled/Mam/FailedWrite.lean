import Entangled.Mam.RoundTrip
/-!
# A packet that is not written

`mam_api_bundle_write_packet` negates the number of the last packet, and `mam_msg_write_packet`
absorbs the packet, before the key tree is asked for a signature. Where no key is left, the context
keeps both, so the next packet of the message is written with a spongos that no reader has. What is
refused for another reason is refused before anything is touched.
-/

namespace Entangled

namespace Mam

open Spongos

variable {T : Troika} {N : Ntru} {M : MerkleMode}

/-- A call that fails leaves the messages and the bundle as they were. -/
def LeavesWriter (T : Troika) (api : Api M) (c : WriteCall) : Prop :=
  ∀ e, (api.write T c).1 = .error e →
    (api.write T c).2.1.writeCtxs = api.writeCtxs ∧ (api.write T c).2.2 = c.bundle

section

variable {api : Api M} {c : WriteCall}

/-- Where the spongos is when the signature is asked for. -/
theorem exhausted_pos {m : Mss M} (hm : m.Sound T) :
    (wotsHashSize + (encodeSizeT (mssSigSize m.height / 3)).length) % spongeRate ≠ 0 := by
  have hdiv := mssSigSize_div m.height
  have hheight := hm.height_le
  have hsize : mssSigSize m.height / 3 ≤ tritsSizeMax := by
    unfold mssMaxD at hheight
    unfold tritsSizeMax
    omega
  have htrytes := (sizeTrytes_spec hsize).1
  rw [length_encodeSizeT hsize, sizeofSizeT]
  unfold wotsHashSize spongeRate
  omega

/-- **Where no key is left**, the message is not what it was. -/
theorem writeCtxs_exhausted (hsound : api.Sound T) (hwait : api.Waiting) (hex : Exhausted api c) :
    (api.write T c).1 = .error .mssExhausted ∧ (api.write T c).2.1.writeCtxs ≠ api.writeCtxs := by
  obtain ⟨ctx, m, hw, hsig, hleft⟩ := hex
  obtain ⟨hctx, hm⟩ := findWrite_eq hw.found
  obtain ⟨s, hpos, hwrite⟩ := write_exhausted (T := T) hw hsig hleft
  rw [hwrite]
  refine ⟨rfl, fun hsame => ?_⟩
  dsimp only at hsame
  have hafter := CtxMap.find_assign (v := { ctx with spongos := s, ord := c.ord ctx })
    (show (api.writeCtxs.find c.msgId).isSome by rw [hctx]; rfl)
  rw [hsame, hctx] at hafter
  have hspongos := congrArg WriteContext.spongos (Option.some.inj hafter)
  have hcommitted := (hwait _ (CtxMap.mem_of_find hctx)).committed
  rw [hspongos] at hcommitted
  exact exhausted_pos (hsound.mss hm) (hpos ▸ hcommitted)

/-- **Where a key is left**, or nothing is written at all, a failure leaves all as it was. -/
theorem leavesWriter_of_not_exhausted (hc : ¬ Exhausted api c) : LeavesWriter T api c := by
  intro e he
  rcases write_cases api c with ⟨ctx, m, hw, hleft⟩ | hex | hnot
  · rw [write_ok hw hleft] at he
    exact nomatch he
  · exact absurd hex hc
  · obtain ⟨e', he'⟩ := write_refused (T := T) hnot
    rw [he']
    exact ⟨rfl, rfl⟩

end

/-- **Exactly the packets that are not to be signed with a key that is not there** leave the writer
as it was if they fail, wherever calls of this kind have led; and a reader of a message that follows
its writer, and sees only the packets that are written, reads all of these. -/
theorem failed_write_leaves_writer {api : Api M} (hreached : Reached T N Tame api) :
    (∀ c, LeavesWriter T api c ↔ ¬ Exhausted api c) ∧
    ∀ (rd : Api M) (msgId : List Trit) (ctx : WriteContext) (m : Mss M) (cs : List WriteCall),
      api.findWrite msgId = some (ctx, m) →
      rd.readCtxs.find msgId = some ⟨ctx.spongos, m.root, ctx.ord⟩ →
      msgId.length = msgIdSize → Unexhausted T api cs →
      (∀ c ∈ cs, c.msgId = msgId → Alone c) → ctx.ord + cs.length ≤ maxOrd + 1 →
      ∀ p ∈ relay T N msgId api rd cs, p.2 = .ok (some ⟨p.1.payload, p.1.isLastPacket⟩) := by
  refine ⟨fun c => ⟨fun hleaves hex => ?_, leavesWriter_of_not_exhausted⟩, ?_⟩
  · obtain ⟨he, hchanged⟩ := writeCtxs_exhausted hreached.sound hreached.waiting hex
    exact hchanged (hleaves _ he).1
  · intro rd msgId ctx m cs hwriting hreading hlen hun halone hroom
    obtain ⟨hctx, hm⟩ := findWrite_eq hwriting
    have hfollow : Following T api rd msgId ctx m := ⟨hwriting, hreading, hreached.sound.mss hm,
      (hreached.waiting _ (CtxMap.mem_of_find hctx)).ord_pos⟩
    exact hfollow.relayed hlen hun halone hroom

/-! ## A tree with one key -/

/-- The call of the library that writes a packet. -/
def WriteCall.toCall (c : WriteCall) : Call :=
  .writePacket c.now c.args c.msgId c.payload c.checksum c.isLastPacket c.alloc c.bundle

/-- The call of the library that writes a header. -/
def HeaderCall.toCall (h : HeaderCall) : Call :=
  .writeHeader h.now h.chId h.epId h.ch1Id h.ep1Id h.psks h.ntruPks h.msgTypeId h.alloc []

theorem call_write (api : Api M) (c : WriteCall) :
    api.call T N c.toCall = (api.write T c).2.1 := rfl

theorem call_writeHeader (api : Api M) (h : HeaderCall) :
    api.call T N h.toCall = (api.writeHeader T N h).2.1 := rfl

namespace Spent

open Filled (writer channel greeting greeted)

/-- The node that has written a header for everyone. -/
def started : Api classic := (writer 0).call Forged.T Forged.N greeting.toCall

/-- The number of its message. -/
def msgId : List Trit := msgIdOf Forged.T (channel 0)

/-- A packet that is signed. -/
def signing : WriteCall := ⟨0, true, msgId, [], .sig, false, fun _ => true, []⟩

/-- A packet without memory for it. -/
def starved : WriteCall := ⟨0, true, msgId, [], .none, false, fun _ => false, []⟩

/-- A packet that is not signed. -/
def plain : WriteCall := ⟨0, true, msgId, [], .none, true, fun _ => true, []⟩

/-- The node that has used its key. -/
def spent : Api classic := started.call Forged.T Forged.N signing.toCall

theorem reached_started {ok : Api classic → Call → Prop}
    (hchannel : ∀ api, ok api (.channelCreate 0 fun _ => true))
    (hheader : ∀ api, ok api greeting.toCall) : Reached Forged.T Forged.N ok started :=
  .call (.call (.init _) (hchannel _)) (hheader _)

theorem reached_spent : Reached Forged.T Forged.N (fun _ _ => True) spent :=
  .call (reached_started (fun _ => trivial) fun _ => trivial) trivial

/-- **The message that is started** has the one key, and the reader of its header follows. -/
theorem started_spec : ∃ m', started.findWrite msgId =
      some (greeted.context Forged.T Forged.N (.channel 0), m') ∧
    m'.root = (channel 0).mss.root ∧ m'.Sound Forged.T ∧ mssRemainingSks m' = 1 := by
  obtain ⟨ch, hplaces⟩ := places_of_headerArgs Filled.headerArgs_greeting
  obtain rfl := Option.some.inj (hplaces.channel.symm.trans Filled.channels_first)
  obtain ⟨api', m', hwrite, hfound, hroot, hm, hspeaker⟩ := writeHeader_ok (N := Forged.N)
    (Filled.reached_writer 0).sound hplaces
    (fun h => h.elim (fun h => absurd rfl h) (fun h => absurd rfl h)) ⟨rfl, rfl⟩
  have hstarted : started = api' := by rw [started, call_writeHeader, hwrite]
  rw [Filled.args_greeting] at hfound hroot hspeaker
  rw [hstarted]
  refine ⟨m', hfound, hroot, hm, ?_⟩
  rw [hspeaker rfl rfl, mssRemainingSks_eq]
  show 2 ^ 0 - 0 = 1
  decide

/-- **The node has a packet to sign** and no key. -/
theorem exhausted_spent : Exhausted spent signing := by
  obtain ⟨m, hfound, hroot, hm, hone⟩ := started_spec
  obtain ⟨hctx, hmss⟩ := findWrite_eq hfound
  have hw : Writable started signing (greeted.context Forged.T Forged.N (.channel 0)) m :=
    ⟨rfl, hfound, rfl, rfl⟩
  have hleft : signing.checksum = .sig → mssRemainingSks m ≠ 0 := fun _ => by rw [hone]; decide
  have hread : CtxMap.find { started with readCtxs := [(msgId, ⟨(signing.packet Forged.T
      (greeted.context Forged.T Forged.N (.channel 0)) m).state, m.root, 2⟩)] }.readCtxs msgId =
      some ⟨(signing.packet Forged.T (greeted.context Forged.T Forged.N (.channel 0)) m).state,
        m.root, 2⟩ := CtxMap.find_cons.trans (if_pos rfl)
  have hfollow := following_write (T := Forged.T) (c := signing) (m := m) rfl hw hm Int.one_pos hleft
    rfl hread
  have hskn := skn_mssNext (T := Forged.T) (m := m) (by rw [hone]; decide)
  have hspent : spent = (started.write Forged.T signing).2.1 := call_write _ _
  rw [hspent]
  refine ⟨_, _, ⟨rfl, hfollow.writing, rfl, rfl⟩, rfl, ?_⟩
  rw [mssRemainingSks_eq] at hone
  show mssRemainingSks (mssNext Forged.T m) = 0
  rw [mssRemainingSks_eq, height_mssNext, hskn]
  omega

theorem tame_started : Reached Forged.T Forged.N Tame started :=
  reached_started (fun _ => trivial) fun _ => trivial

/-- A reader that has read the header, and waits. -/
def follower (m : Mss classic) : Api classic :=
  { Api.init (M := classic) Forged.prng with readCtxs :=
      [(msgId, ⟨(greeted.header Forged.T Forged.N).state, m.root, 1⟩)] }

theorem find_follower (m : Mss classic) : (follower m).readCtxs.find msgId =
    some ⟨(greeted.context Forged.T Forged.N (.channel 0)).spongos, m.root,
      (greeted.context Forged.T Forged.N (.channel 0)).ord⟩ :=
  CtxMap.find_cons.trans (if_pos rfl)

theorem unexhausted_plain : Unexhausted Forged.T started [starved, plain] := by
  have hplain : ∀ api : Api classic, ¬ Exhausted api plain := fun _ h => by
    obtain ⟨_, _, _, hsig, _⟩ := h
    exact nomatch hsig
  refine ⟨fun h => ?_, hplain _, trivial⟩
  obtain ⟨_, _, _, hsig, _⟩ := h
  exact nomatch hsig

end Spent

/-- A packet that is refused, and then one that is written and read. -/
theorem failed_write_leaves_writer_plain : ∃ rd : Api classic,
    ∀ p ∈ relay Forged.T Forged.N Spent.msgId Spent.started rd [Spent.starved, Spent.plain],
      p.2 = .ok (some ⟨p.1.payload, p.1.isLastPacket⟩) := by
  obtain ⟨m, hfound, -⟩ := Spent.started_spec
  refine ⟨Spent.follower m, (failed_write_leaves_writer Spent.tame_started).2 (Spent.follower m)
    Spent.msgId _ m [Spent.starved, Spent.plain] hfound (Spent.find_follower m)
    (length_msgIdOf _) Spent.unexhausted_plain (fun c hc _ => ?_) ?_⟩
  · rcases List.mem_cons.mp hc with rfl | hc
    · exact ⟨rfl, dvd_zero _, Nat.zero_le _⟩
    · obtain rfl := List.mem_singleton.mp hc
      exact ⟨rfl, dvd_zero _, Nat.zero_le _⟩
  · exact (by decide : (1 : ℤ) + 2 ≤ maxOrd + 1)

/-- **A second signed packet of a tree with one key** is not written, and the message is not what it
was. -/
theorem not_failed_write_leaves_writer_spent :
    ¬ ∀ (M : MerkleMode) (T : Troika) (N : Ntru) (api : Api M), Reached T N (fun _ _ => True) api →
      ∀ c : WriteCall, LeavesWriter T api c := by
  intro hall
  have hexhausted := Spent.exhausted_spent
  have hwait : Spent.spent.Waiting := by
    have hspent : Spent.spent = (Spent.started.write Forged.T Spent.signing).2.1 := call_write _ _
    obtain ⟨m, hfound, -, -, hone⟩ := Spent.started_spec
    rw [hspent]
    refine Spent.tame_started.waiting.write fun hex => ?_
    obtain ⟨ctx, m₁, hw, -, hnone⟩ := hex
    obtain rfl : m = m₁ := congrArg Prod.snd (Option.some.inj (hfound.symm.trans hw.found))
    exact absurd (hone.symm.trans hnone) (by decide)
  obtain ⟨he, hchanged⟩ := writeCtxs_exhausted Spent.reached_spent.sound hwait hexhausted
  exact hchanged (hall _ _ _ _ Spent.reached_spent Spent.signing _ he).1

end Mam

end Entangled
