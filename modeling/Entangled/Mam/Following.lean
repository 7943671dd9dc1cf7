import Entangled.Mam.Invariant
/-!
# Following a writer

A reader follows the writer of a message when its context has the spongos of the writer's, waits for
the number of the packet that is written next, and has the root of the key tree that signs it. It
then reads the packet that is written next, and follows the writer again. Packets of other messages,
and packets that are refused, do nothing to that.
-/

namespace Entangled

namespace Mam

open Spongos

variable {T : Troika} {N : Ntru} {M : MerkleMode}

/-- The largest number of a packet. -/
def maxOrd : ℤ := 193710244

/-- **The reader follows the writer** of a message. -/
structure Following (T : Troika) (api rd : Api M) (msgId : List Trit) (ctx : WriteContext)
    (m : Mss M) : Prop where
  writing : api.findWrite msgId = some (ctx, m)
  reading : rd.readCtxs.find msgId = some ⟨ctx.spongos, m.root, ctx.ord⟩
  sound : m.Sound T
  ord_pos : 0 < ctx.ord

/-- What is written is a packet by itself, of a size that can be told. -/
structure Alone (c : WriteCall) : Prop where
  bundle : c.bundle = []
  trytes : 3 ∣ c.payload.length
  size : c.payload.length / 3 ≤ tritsSizeMax

theorem tagOrd_writeTag {msgId : List Trit} {ord : ℤ} (hid : msgId.length = msgIdSize)
    (hord : 2 * |ord| < 3 ^ 18) : tagOrd (writeTag msgId ord) = ord := by
  have hput := get18_put18 hord []
  rw [List.append_nil] at hput
  rw [tagOrd, writeTag, List.drop_left' hid, hput]

theorem take_writeTag {msgId : List Trit} (hid : msgId.length = msgIdSize) (ord : ℤ) :
    (writeTag msgId ord).take msgIdSize = msgId := List.take_left' hid

/-- A packet whose size cannot be read. -/
theorem msgReadPacket_size_error {ord : ℤ} {pk buffer buffer' : List Trit} {alloc : Bool}
    {s : Spongos} {e : Error} (hsize : decodeSizeT buffer = (.error e, buffer')) :
    (msgReadPacket T ord pk alloc ⟨s, buffer⟩).1 = .error e := by
  have hord : TapeReader.modify (absorb T · (put18 ord)) (⟨s, buffer⟩ : Wire) =
      ((.ok () : Except Error Unit), ⟨absorb T s (put18 ord), buffer⟩) := rfl
  have hfail : pb3UnwrapAbsorbSizeT T ⟨absorb T s (put18 ord), buffer⟩ =
      (.error e, ⟨absorb T s (put18 ord), buffer'⟩) := by
    rw [pb3UnwrapAbsorbSizeT, unwrapAbsorb, hsize]
  rw [msgReadPacket, TapeReader.bind_ok hord, TapeReader.bind_error hfail]

section Step

variable {api rd : Api M} {c : WriteCall} {ctx : WriteContext} {m : Mss M}

theorem WriteCall.abs_ord (hord : 0 < ctx.ord) : |c.ord ctx| = ctx.ord := by
  unfold WriteCall.ord
  split_ifs
  · rw [abs_neg, abs_of_pos hord]
  · exact abs_of_pos hord

/-- What is read of what was written, with zeros or anything else behind it. -/
theorem msgReadPacket_packet (ctx : WriteContext) (hm : m.Sound T)
    (hleft : c.checksum = .sig → mssRemainingSks m ≠ 0)
    (h3 : 3 ∣ c.payload.length) (hsize : c.payload.length / 3 ≤ tritsSizeMax) (rest : List Trit) :
    msgReadPacket T (c.ord ctx) m.root true
        ⟨ctx.spongos, (c.packet T ctx m).cells ++ rest⟩ =
      (.ok c.payload, ⟨(c.packet T ctx m).state, rest⟩) := by
  obtain ⟨s', out, hw, hr⟩ := replays_packet hm hleft h3 hsize (c.ord ctx) ctx.spongos []
  rw [WriteCall.packet, hw, List.nil_append]
  exact hr rest

/-- A packet takes something. -/
theorem packet_ne_nil (ctx : WriteContext) (hm : m.Sound T)
    (hleft : c.checksum = .sig → mssRemainingSks m ≠ 0)
    (h3 : 3 ∣ c.payload.length) (hsize : c.payload.length / 3 ≤ tritsSizeMax) :
    (c.packet T ctx m).cells ≠ [] := by
  intro hnil
  have hread := congrArg Prod.fst
    (msgReadPacket_packet ctx hm hleft h3 hsize [.neg, .zero, .zero])
  have herror : decodeSizeT [.neg, .zero, .zero] = (.error .invalidValue, []) := by decide
  rw [hnil, List.nil_append, msgReadPacket_size_error herror] at hread
  exact nomatch hread

/-- **What a packet read gives**, and what it leaves of the message. -/
theorem readPacketFromMsg_packet (hm : m.Sound T)
    (hleft : c.checksum = .sig → mssRemainingSks m ≠ 0) (h3 : 3 ∣ c.payload.length)
    (hsize : c.payload.length / 3 ≤ tritsSizeMax) (hord : 0 < ctx.ord) (rest : List Trit) :
    apiBundleReadPacketFromMsg T ⟨ctx.spongos, m.root, c.ord ctx⟩
        ((c.packet T ctx m).cells ++ rest) true =
      (.ok ⟨c.payload, c.isLastPacket⟩,
        ⟨(c.packet T ctx m).state, m.root,
          if c.isLastPacket then c.ord ctx else c.ord ctx + 1⟩) := by
  unfold apiBundleReadPacketFromMsg
  dsimp only
  rw [msgReadPacket_packet ctx hm hleft h3 hsize rest]
  dsimp only
  unfold WriteCall.ord
  cases c.isLastPacket with
  | true => rw [if_neg (by simp only [if_true]; omega)]; rfl
  | false => rw [if_pos (by simp only [Bool.false_eq_true, if_false]; omega)]; rfl

/-- What is read of a bundle that starts with a packet of the message. -/
theorem read_of_packet (hm : m.Sound T) (hleft : c.checksum = .sig → mssRemainingSks m ≠ 0)
    (hc : Alone c) (hid : c.msgId.length = msgIdSize) (hord : 0 < ctx.ord)
    (hmax : ctx.ord ≤ maxOrd)
    (hreading : rd.readCtxs.find c.msgId = some ⟨ctx.spongos, m.root, ctx.ord⟩) {r : ReadCall}
    (htag : r.tx.tag = writeTag c.msgId (c.ord ctx)) (halloc : r.alloc 1 = true)
    {rest : List Trit} (hmsg : r.msg = (c.packet T ctx m).cells ++ rest) :
    (rd.read T N r).1 = .ok (some ⟨c.payload, c.isLastPacket⟩) ∧
      (c.isLastPacket = false → (rd.read T N r).2.readCtxs.find c.msgId =
        some ⟨(c.packet T ctx m).state, m.root, ctx.ord + 1⟩) := by
  have hrid : r.msgId = c.msgId := by rw [ReadCall.msgId, htag, take_writeTag hid]
  have hrord : r.ord = c.ord ctx := by
    rw [ReadCall.ord, htag, tagOrd_writeTag hid]
    rw [WriteCall.abs_ord hord]
    unfold maxOrd at hmax
    omega
  have habs := WriteCall.abs_ord (c := c) hord
  have hover : handedOver ⟨ctx.spongos, m.root, ctx.ord⟩ r =
      ⟨ctx.spongos, m.root, c.ord ctx⟩ := by
    unfold handedOver
    rw [hrord]
    unfold WriteCall.ord
    cases c.isLastPacket with
    | true => exact if_pos (by simp only [if_true]; omega)
    | false => exact if_neg (by simp only [Bool.false_eq_true, if_false]; omega)
  have hturn : ¬ (r.ord ≠ ctx.ord ∧ -r.ord ≠ ctx.ord) := by
    rw [hrord]
    rcases abs_choice (c.ord ctx) with h | h <;> omega
  have hfrom := readPacketFromMsg_packet (c := c) hm hleft hc.trytes hc.size hord rest
  have hread : rd.read T N r = apiBundleReadPacket T rd ⟨ctx.spongos, m.root, ctx.ord⟩ r.ord
      r.msgId r.msg r.alloc := by
    rw [read_packet (by rw [hrord]; intro h0; rw [h0, abs_zero] at habs; omega), hrid, hreading]
    exact if_neg hturn
  unfold handedOver at hover
  rw [hread, apiBundleReadPacket]
  dsimp only
  rw [hover, hmsg, halloc, hfrom, hrid]
  cases hlast : c.isLastPacket with
  | true => exact ⟨rfl, fun h => (by cases h)⟩
  | false =>
    refine ⟨rfl, fun _ => ?_⟩
    have hsame : c.ord ctx = ctx.ord := by rw [WriteCall.ord, hlast]; rfl
    rw [hsame]
    exact CtxMap.find_assign (by rw [hreading]; rfl)

/-- A bundle by itself: all of it has the tag, and it is the message with zeros behind it. -/
theorem bundleWrap_alone (now : ℕ) (address tag : List Trit) {message : List Trit}
    (hne : message ≠ []) :
    ∃ tx txs, bundleWrap now address tag message [] = tx :: txs ∧ tx.tag = tag ∧
      tx.address = address ∧
      bundleUnwrap (tx :: txs) = message ++ List.replicate (fill message.length) .zero := by
  have hpos := List.length_pos_iff.mpr hne
  have hparts : numParts message.length = numParts message.length - 1 + 1 := by
    unfold numParts numTritsMessage
    omega
  have htags := map_tag_bundleWrap now address tag message []
  have haddresses := map_address_bundleWrap now address tag message []
  have hmsg := bundleUnwrap_bundleWrap now address tag message []
  rw [hparts] at htags haddresses
  generalize bundleWrap now address tag message [] = bundle at htags haddresses hmsg ⊢
  cases bundle with
  | nil => exact nomatch htags
  | cons tx txs =>
    exact ⟨tx, txs, rfl, (List.cons.inj htags).1, (List.cons.inj haddresses).1, hmsg⟩

theorem root_mssAfter (m : Mss M) (checksum : Checksum) :
    (mssAfter T m checksum).root = m.root := by
  cases checksum with
  | none => rfl
  | mac => rfl
  | sig => exact root_mssNext m

theorem findWrite_of {msgId : List Trit} (hctx : api.writeCtxs.find msgId = some ctx)
    (hm : api.mss ctx.mss = some m) : api.findWrite msgId = some (ctx, m) := by
  rw [Api.findWrite, hctx]
  show (do let m ← api.mss ctx.mss; pure (ctx, m)) = _
  rw [hm]
  rfl

/-- Who has read the packet that is written follows the writer again, if it is not the last. -/
theorem following_write {msgId : List Trit} (hid : c.msgId = msgId) (hw : Writable api c ctx m)
    (hm : m.Sound T) (hord : 0 < ctx.ord) (hleft : c.checksum = .sig → mssRemainingSks m ≠ 0)
    (hlast : c.isLastPacket = false)
    (hread : rd.readCtxs.find msgId = some ⟨(c.packet T ctx m).state, m.root, ctx.ord + 1⟩) :
    Following T (api.write T c).2.1 rd msgId
      { ctx with spongos := (c.packet T ctx m).state, ord := ctx.ord + 1 }
      (mssAfter T m c.checksum) := by
  obtain ⟨hctx, hmss⟩ := findWrite_eq hw.found
  have hsame : c.ord ctx = ctx.ord := by rw [WriteCall.ord, hlast]; rfl
  rw [write_ok hw hleft]
  refine ⟨findWrite_of ?_ (Api.mss_setMss hmss), ?_, sound_mssAfter hm c.checksum, by
    dsimp only; omega⟩
  · unfold writeCtxsAfter
    rw [hlast, if_neg Bool.false_ne_true, if_neg Bool.false_ne_true, ← hid, hsame]
    exact CtxMap.find_assign (by rw [hctx]; rfl)
  · rw [root_mssAfter]
    exact hread

/-- **The next packet is read**, and the reader follows the writer again, if it is not the last. -/
theorem Following.delivered {msgId : List Trit} (hfollow : Following T api rd msgId ctx m)
    (hid : c.msgId = msgId) (hlen : msgId.length = msgIdSize) (hw : Writable api c ctx m)
    (hleft : c.checksum = .sig → mssRemainingSks m ≠ 0) (hc : Alone c) (hmax : ctx.ord ≤ maxOrd) :
    ∃ tx txs, (api.write T c).2.2 = tx :: txs ∧ ∀ alloc : ℕ → Bool, alloc 1 = true →
      (rd.read T N ⟨tx, txs, alloc⟩).1 = .ok (some ⟨c.payload, c.isLastPacket⟩) ∧
        (c.isLastPacket = false → ∃ ctx', ctx'.ord = ctx.ord + 1 ∧
          Following T (api.write T c).2.1 (rd.read T N ⟨tx, txs, alloc⟩).2 msgId ctx'
            (mssAfter T m c.checksum)) := by
  have hm := hfollow.sound
  have hord := hfollow.ord_pos
  obtain ⟨tx, txs, hbundle, htag, -, hmsg⟩ := bundleWrap_alone c.now ctx.chid
    (writeTag c.msgId (c.ord ctx)) (packet_ne_nil ctx hm hleft hc.trytes hc.size)
  refine ⟨tx, txs, by rw [write_ok hw hleft, hc.bundle]; exact hbundle, fun alloc halloc => ?_⟩
  obtain ⟨hread, hnext⟩ := read_of_packet (N := N) (r := ⟨tx, txs, alloc⟩) hm hleft hc
    (hid ▸ hlen) hord hmax (hid ▸ hfollow.reading) htag halloc hmsg
  exact ⟨hread, fun hlast => ⟨_, rfl, following_write hid hw hm hord hleft hlast
    (hid ▸ hnext hlast)⟩⟩

/-- A packet of another message, and what is refused, does nothing to a reader that follows. -/
theorem Following.other {msgId : List Trit} (hfollow : Following T api rd msgId ctx m)
    (hc : ¬ Exhausted api c)
    (hother : c.msgId ≠ msgId ∨ ¬ ∃ ctx m, Writable api c ctx m) :
    ∃ m', Following T (api.write T c).2.1 rd msgId ctx m' := by
  obtain ⟨hctx, hmss⟩ := findWrite_eq hfollow.writing
  rcases write_cases api c with ⟨ctx₁, m₁, hw, hleft⟩ | hex | hnot
  · rcases hother with hne | hnot
    · obtain ⟨-, hmss₁⟩ := findWrite_eq hw.found
      have hkept : (writeCtxsAfter T api c ctx₁ m₁).find msgId = some ctx := by
        rw [← hctx]
        unfold writeCtxsAfter
        dsimp only
        rw [← CtxMap.find_entries, ← @CtxMap.find_entries _ _ _ api.writeCtxs]
        split_ifs
        · rw [CtxMap.entries_remove, if_neg hne, CtxMap.entries_assign, if_neg hne]
        · rw [CtxMap.entries_assign, if_neg hne]
      rw [write_ok hw hleft]
      by_cases href : ctx₁.mss = ctx.mss
      · -- the message is signed by the same key tree
        rw [href] at hmss₁
        obtain rfl := Option.some.inj (hmss₁.symm.trans hmss)
        refine ⟨mssAfter T m₁ c.checksum, findWrite_of hkept ?_, ?_,
          sound_mssAfter hfollow.sound c.checksum, hfollow.ord_pos⟩
        · rw [href]
          exact Api.mss_setMss hmss
        · rw [root_mssAfter]
          exact hfollow.reading
      · refine ⟨m, findWrite_of hkept ?_, hfollow.reading, hfollow.sound, hfollow.ord_pos⟩
        exact (Api.mss_setMss_of_ne href).trans hmss
    · exact absurd ⟨ctx₁, m₁, hw⟩ hnot
  · exact absurd hex hc
  · obtain ⟨e, he⟩ := write_refused (T := T) hnot
    rw [he]
    exact ⟨m, hfollow⟩

end Step

/-! ## Runs -/

section Runs

variable (T N)

/-- What the reader of a message gets of a run of packets: of those that are written, each is
handed to it. -/
def relay (msgId : List Trit) : Api M → Api M → List WriteCall →
    List (WriteCall × Except Error (Option Packet))
  | _, _, [] => []
  | api, rd, c :: cs =>
    match api.write T c with
    | (.error _, api, _) => relay msgId api rd cs
    | (.ok (), api, []) => if c.msgId = msgId then [(c, .ok none)] else relay msgId api rd cs
    | (.ok (), api, tx :: txs) =>
      if c.msgId = msgId then
        let (packet, rd) := rd.read T N ⟨tx, txs, fun _ => true⟩
        (c, packet) :: if c.isLastPacket then [] else relay msgId api rd cs
      else relay msgId api rd cs

/-- No packet of the run is to be signed with a key that is not there. -/
def Unexhausted : Api M → List WriteCall → Prop
  | _, [] => True
  | api, c :: cs => ¬ Exhausted api c ∧ Unexhausted (api.write T c).2.1 cs

variable {T N}

/-- **All that is written is read**, by a reader that follows. -/
theorem Following.relayed {msgId : List Trit} (hlen : msgId.length = msgIdSize)
    {cs : List WriteCall} {api rd : Api M} {ctx : WriteContext} {m : Mss M}
    (hfollow : Following T api rd msgId ctx m) (hun : Unexhausted T api cs)
    (halone : ∀ c ∈ cs, c.msgId = msgId → Alone c) (hroom : ctx.ord + cs.length ≤ maxOrd + 1) :
    ∀ p ∈ relay T N msgId api rd cs, p.2 = .ok (some ⟨p.1.payload, p.1.isLastPacket⟩) := by
  induction cs generalizing api rd ctx m with
  | nil => exact fun p hp => absurd hp List.not_mem_nil
  | cons c cs ih =>
    obtain ⟨hc, hcs⟩ := hun
    have halone' : ∀ c ∈ cs, c.msgId = msgId → Alone c :=
      fun c hmem => halone c (List.mem_cons_of_mem _ hmem)
    rw [List.length_cons, Nat.cast_succ] at hroom
    rw [relay]
    by_cases hid : c.msgId = msgId
    · by_cases hw : ∃ ctx m, Writable api c ctx m
      · obtain ⟨ctx₁, m₁, hw⟩ := hw
        have hleft : c.checksum = .sig → mssRemainingSks m₁ ≠ 0 :=
          fun hsig h0 => hc ⟨ctx₁, m₁, hw, hsig, h0⟩
        obtain ⟨rfl, rfl⟩ : ctx = ctx₁ ∧ m = m₁ := by
          have hsame := hfollow.writing.symm.trans (hid ▸ hw.found)
          exact ⟨congrArg Prod.fst (Option.some.inj hsame),
            congrArg Prod.snd (Option.some.inj hsame)⟩
        obtain ⟨tx, txs, hbundle, hread⟩ := hfollow.delivered (N := N) hid hlen hw hleft
          (halone c List.mem_cons_self hid) (by omega)
        obtain ⟨hpacket, hnext⟩ := hread (fun _ => true) rfl
        have hok : (api.write T c).1 = .ok () := by rw [write_ok hw hleft]
        generalize api.write T c = r at *
        obtain ⟨_, api', _⟩ := r
        obtain rfl : _ = tx :: txs := hbundle
        obtain rfl : _ = Except.ok () := hok
        dsimp only at *
        rw [if_pos hid]
        generalize rd.read T N ⟨tx, txs, fun _ => true⟩ = r at *
        obtain ⟨packet, rd'⟩ := r
        dsimp only at *
        intro p hp
        rcases List.mem_cons.mp hp with rfl | hp
        · exact hpacket
        · cases hlast : c.isLastPacket with
          | true => simp [hlast] at hp
          | false =>
            obtain ⟨ctx', hord, hfollow'⟩ := hnext hlast
            rw [hlast, if_neg Bool.false_ne_true] at hp
            exact ih hfollow' hcs halone' (by omega) p hp
      · -- a call that is refused sends nothing
        obtain ⟨m', hfollow'⟩ := hfollow.other (T := T) hc (.inr hw)
        obtain ⟨e, he⟩ := write_refused (T := T) hw
        rw [he] at hfollow' hcs ⊢
        exact ih hfollow' hcs halone' (by omega)
    · -- what is sent for another message is not relayed
      obtain ⟨m', hfollow'⟩ := hfollow.other (T := T) hc (.inl hid)
      have hrest := ih hfollow' hcs halone' (by omega)
      generalize api.write T c = r at *
      obtain ⟨e | u, api', bundle⟩ := r
      · exact hrest
      · cases bundle with
        | nil =>
          dsimp only
          rw [if_neg hid]
          exact hrest
        | cons tx txs =>
          dsimp only
          rw [if_neg hid]
          exact hrest

end Runs

end Mam

end Entangled
