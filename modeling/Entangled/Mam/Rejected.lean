import Entangled.Mam.Api
import Entangled.Mam.Replays
/-!
# A rejected packet

`mam_api_bundle_read_packet_from_msg` puts the context back when a packet is rejected, but the caller
has negated the number of the packet before, if the tag says that this is the last one. So a bundle
whose tag carries the number the context waits for, negated, and whose packet is rejected leaves the
context with another number than it had: the genuine packet is then read under the wrong one.

No other bundle that is rejected does anything to the contexts, and packets are read as if these had
not been there.
-/

namespace Entangled

namespace Mam

open Spongos

/-! ## The map of contexts -/

namespace CtxMap

variable {κ α : Type} [DecidableEq κ] {map : CtxMap κ α} {k k' : κ} {v v' : α}

@[simp] theorem find_nil : find ([] : CtxMap κ α) k = none := rfl

theorem find_cons : find ((k', v) :: map) k = if k' = k then some v else find map k := by
  unfold find
  rw [List.find?_cons]
  by_cases h : k' = k
  · simp [h]
  · simp [h]

theorem find_assign (hk : (find map k).isSome) : find (assign map k v) k = some v := by
  induction map with
  | nil => simp at hk
  | cons e map ih =>
    obtain ⟨l, w⟩ := e
    rw [find_cons] at hk
    rw [assign]
    by_cases h : l = k
    · rw [if_pos h, find_cons, if_pos rfl]
    · rw [if_neg h] at hk ⊢
      rw [find_cons, if_neg h, ih hk]

/-- What is found put back where it was. -/
theorem assign_find (hk : find map k = some v) : assign map k v = map := by
  induction map with
  | nil => simp at hk
  | cons e map ih =>
    obtain ⟨l, w⟩ := e
    rw [find_cons] at hk
    rw [assign]
    by_cases h : l = k
    · rw [if_pos h] at hk
      rw [if_pos h, Option.some.inj hk, h]
    · rw [if_neg h] at hk
      rw [if_neg h, ih hk]

/-- The entries under one key. -/
def entries (map : CtxMap κ α) (k : κ) : CtxMap κ α := List.filter (fun e => e.1 = k) map

theorem entries_cons : entries ((k', v) :: map) k =
    if k' = k then (k', v) :: entries map k else entries map k := by
  unfold entries
  rw [List.filter_cons]
  simp only [decide_eq_true_eq]

/-- What is found is found among them. -/
theorem find_entries : find (entries map k) k = find map k := by
  induction map with
  | nil => rfl
  | cons e map ih =>
    obtain ⟨l, w⟩ := e
    rw [entries_cons, find_cons]
    by_cases h : l = k
    · rw [if_pos h, if_pos h, find_cons, if_pos h]
    · rw [if_neg h, if_neg h, ih]

theorem entries_assign :
    entries (assign map k v) k' =
      if k = k' then assign (entries map k) k v else entries map k' := by
  induction map with
  | nil => split_ifs <;> rfl
  | cons e map ih =>
    obtain ⟨l, w⟩ := e
    rw [assign]
    by_cases hl : l = k
    · subst hl
      rw [if_pos rfl, entries_cons]
      by_cases h : l = k'
      · subst h
        rw [if_pos rfl, if_pos rfl, entries_cons, if_pos rfl, assign, if_pos rfl]
      · rw [if_neg h, if_neg h, entries_cons, if_neg h]
    · rw [if_neg hl, entries_cons, ih, entries_cons, entries_cons, if_neg hl]
      by_cases h : k = k'
      · subst h
        rw [if_neg hl, if_pos rfl, if_pos rfl]
      · rw [if_neg h, if_neg h]

theorem entries_remove :
    entries (remove map k) k' = if k = k' then remove (entries map k) k else entries map k' := by
  induction map with
  | nil => split_ifs <;> rfl
  | cons e map ih =>
    obtain ⟨l, w⟩ := e
    have hcons : ∀ {w : α} {map : CtxMap κ α}, remove ((l, w) :: map) k =
        if l = k then map else (l, w) :: remove map k := by
      intro w map
      unfold remove
      rw [List.eraseP_cons]
      by_cases hl : l = k
      · simp [hl]
      · simp [hl]
    rw [hcons]
    by_cases hl : l = k
    · rw [if_pos hl, entries_cons, entries_cons, if_pos hl, hcons, if_pos hl]
      by_cases h : k = k'
      · rw [if_pos h, h]
      · rw [if_neg h, if_neg (hl ▸ h)]
    · rw [if_neg hl, entries_cons, ih, entries_cons, entries_cons, if_neg hl]
      by_cases h : k = k'
      · subst h
        rw [if_neg hl, if_pos rfl, if_pos rfl]
      · rw [if_neg h, if_neg h]

end CtxMap

/-! ## One bundle -/

/-- A call of `mam_api_bundle_read`. -/
structure ReadCall where
  tx : Transaction
  txs : List Transaction
  alloc : ℕ → Bool

namespace ReadCall

/-- The number of the message in the tag. -/
def msgId (c : ReadCall) : List Trit := c.tx.tag.take msgIdSize

/-- The number of the packet in the tag. -/
def ord (c : ReadCall) : ℤ := tagOrd c.tx.tag

/-- The trits of the message parts. -/
def msg (c : ReadCall) : List Trit := bundleUnwrap (c.tx :: c.txs)

end ReadCall

section

variable (T : Troika) (N : Ntru) {M : MerkleMode}

/-- What is read of a bundle. -/
def Api.read (api : Api M) (c : ReadCall) : Except Error (Option Packet) × Api M :=
  apiBundleRead T N api c.tx c.txs c.alloc

/-- The bundle is rejected. -/
def Rejected (api : Api M) (c : ReadCall) : Prop := ∃ e, (api.read T N c).1 = .error e

/-- The packet in the bundle is one `mam_msg_read_packet` accepts as the last one. -/
def AcceptedAsLast (ctx : ReadContext) (c : ReadCall) : Prop :=
  ∃ payload, (msgReadPacket T (-ctx.ord) ctx.pk (c.alloc 1) ⟨ctx.spongos, c.msg⟩).1 = .ok payload

/-- The bundle does not pass for the last packet of a known message at the number its context is at,
or is that packet. -/
def Harmless (api : Api M) (c : ReadCall) : Prop :=
  ∀ ctx, api.readCtxs.find c.msgId = some ctx → c.ord < 0 → (c.ord = ctx.ord ∨ -c.ord = ctx.ord) →
    AcceptedAsLast T ctx c

variable {T N} {api : Api M} {c : ReadCall}

theorem readCtxs_readFirst_error {ctx : ReadContext} {bundle : List Transaction}
    {msgId : List Trit} {d : ℕ} {alloc : ℕ → Bool} {e : Error}
    (he : (apiBundleReadFirst T api ctx bundle msgId d alloc).1 = .error e) :
    (apiBundleReadFirst T api ctx bundle msgId d alloc).2 = api := by
  unfold apiBundleReadFirst at he ⊢
  dsimp only at he ⊢
  generalize bundle[d / numTritsMessage + 1]? = tx at he ⊢
  cases tx with
  | none =>
    dsimp only at he ⊢
    split_ifs at he ⊢
    rfl
  | some tx =>
    dsimp only at he ⊢
    generalize apiBundleReadPacketFromMsg T _ _ (alloc 1) = r at he ⊢
    obtain ⟨e | packet, ctx'⟩ := r
    · rfl
    · dsimp only at he ⊢
      split_ifs at he ⊢
      rfl

/-- **A header that is rejected** does nothing to the contexts. -/
theorem readCtxs_of_rejected_header (h0 : c.ord = 0) (hrej : Rejected T N api c) :
    (api.read T N c).2.readCtxs = api.readCtxs := by
  obtain ⟨e, he⟩ := hrej
  unfold Api.read apiBundleRead at he ⊢
  dsimp only at he ⊢
  rw [if_pos (show tagOrd c.tx.tag = 0 from h0)] at he ⊢
  split_ifs at he ⊢
  unfold apiBundleReadHeader at he ⊢
  dsimp only at he ⊢
  generalize msgReadHeader T N _ _ _ _ _ _ _ = r at he ⊢
  obtain ⟨e | pk, trusted, t⟩ := r
  · rfl
  · have hsame := congrArg Api.readCtxs (readCtxs_readFirst_error he)
    exact hsame

/-- The bundle is not that of a header, and goes by the context under its number. -/
theorem read_packet (h0 : c.ord ≠ 0) :
    api.read T N c =
      match api.readCtxs.find c.msgId with
      | none => (.error .messageNotFound, api)
      | some ctx =>
        if c.ord ≠ ctx.ord ∧ -c.ord ≠ ctx.ord then (.error .badPacketOrd, api)
        else apiBundleReadPacket T api ctx c.ord c.msgId c.msg c.alloc :=
  if_neg h0

/-- The context as `mam_api_bundle_read` hands it over. -/
def handedOver (ctx : ReadContext) (c : ReadCall) : ReadContext :=
  if c.ord < 0 then { ctx with ord := -ctx.ord } else ctx

/-- What `mam_msg_read_packet` says to the bundle under a context. -/
def msgReadOf (T : Troika) (ctx : ReadContext) (c : ReadCall) : Except Error (List Trit) :=
  (msgReadPacket T ctx.ord ctx.pk (c.alloc 1) ⟨ctx.spongos, c.msg⟩).1

theorem readPacketFromMsg_error {ctx : ReadContext} {e : Error} (he : msgReadOf T ctx c = .error e) :
    apiBundleReadPacketFromMsg T ctx c.msg (c.alloc 1) = (.error e, ctx) := by
  unfold msgReadOf at he
  unfold apiBundleReadPacketFromMsg
  dsimp only
  generalize msgReadPacket T _ _ (c.alloc 1) _ = r at he ⊢
  obtain ⟨r, t⟩ := r
  obtain rfl : r = .error e := he
  rfl

theorem readPacketFromMsg_ok {ctx : ReadContext} {payload : List Trit}
    (hp : msgReadOf T ctx c = .ok payload) :
    ∃ packet ctx', apiBundleReadPacketFromMsg T ctx c.msg (c.alloc 1) = (.ok packet, ctx') := by
  unfold msgReadOf at hp
  unfold apiBundleReadPacketFromMsg
  dsimp only
  generalize msgReadPacket T _ _ (c.alloc 1) _ = r at hp ⊢
  obtain ⟨r, t⟩ := r
  obtain rfl : r = .ok payload := hp
  dsimp only
  split_ifs <;> exact ⟨_, _, rfl⟩

theorem readPacket_error {ctx : ReadContext} {e : Error}
    (he : msgReadOf T (handedOver ctx c) c = .error e) :
    apiBundleReadPacket T api ctx c.ord c.msgId c.msg c.alloc =
      (.error e, { api with readCtxs := api.readCtxs.assign c.msgId (handedOver ctx c) }) := by
  have hfrom := readPacketFromMsg_error he
  unfold handedOver at hfrom ⊢
  simp only [apiBundleReadPacket, hfrom]

theorem readPacket_ok {ctx : ReadContext} {payload : List Trit}
    (hp : msgReadOf T (handedOver ctx c) c = .ok payload) :
    ∃ packet, (apiBundleReadPacket T api ctx c.ord c.msgId c.msg c.alloc).1 = .ok (some packet) := by
  obtain ⟨packet, ctx', hfrom⟩ := readPacketFromMsg_ok hp
  unfold handedOver at hfrom
  simp only [apiBundleReadPacket, hfrom]
  split_ifs <;> exact ⟨packet, rfl⟩

/-- **A bundle that is harmless and rejected** does nothing to the contexts. -/
theorem readCtxs_of_rejected (hrej : Rejected T N api c) (hharmless : Harmless T api c) :
    (api.read T N c).2.readCtxs = api.readCtxs := by
  by_cases h0 : c.ord = 0
  · exact readCtxs_of_rejected_header h0 hrej
  · obtain ⟨e, he⟩ := hrej
    rw [read_packet h0] at he ⊢
    cases hfind : api.readCtxs.find c.msgId with
    | none => rfl
    | some ctx =>
      rw [hfind] at he
      dsimp only at he ⊢
      split_ifs at he ⊢ with hord
      · rfl
      cases hp : msgReadOf T (handedOver ctx c) c with
      | ok payload =>
        obtain ⟨packet, hok⟩ := readPacket_ok hp
        rw [hok] at he
        exact absurd he (by simp)
      | error e =>
        rw [readPacket_error hp]
        have hkept : handedOver ctx c = ctx := by
          rw [handedOver, if_neg]
          intro hneg
          -- as the last packet it would have been accepted
          obtain ⟨payload, hacc⟩ := hharmless ctx hfind hneg (by tauto)
          rw [handedOver, if_pos hneg, msgReadOf, hacc] at hp
          exact absurd hp (by simp)
        rw [hkept]
        exact CtxMap.assign_find hfind

/-- **A bundle that is not harmless** is rejected, and leaves its context with the number negated. -/
theorem read_of_not_harmless (hharm : ¬ Harmless T api c) :
    ∃ ctx e, ctx.ord ≠ 0 ∧ api.readCtxs.find c.msgId = some ctx ∧ (api.read T N c).1 = .error e ∧
      (api.read T N c).2.readCtxs.find c.msgId = some { ctx with ord := -ctx.ord } := by
  simp only [Harmless, not_forall] at hharm
  obtain ⟨ctx, hfind, hneg, hmatch, hnot⟩ := hharm
  have hover : handedOver ctx c = { ctx with ord := -ctx.ord } := if_pos hneg
  cases hp : msgReadOf T (handedOver ctx c) c with
  | ok payload =>
    rw [hover] at hp
    exact absurd ⟨payload, hp⟩ hnot
  | error e =>
    have hread : api.read T N c = (.error e, { api with
        readCtxs := api.readCtxs.assign c.msgId { ctx with ord := -ctx.ord } }) := by
      rw [read_packet hneg.ne, hfind]
      dsimp only
      rw [if_neg (by tauto), readPacket_error hp, hover]
    refine ⟨ctx, e, ?_, hfind, by rw [hread], ?_⟩
    · rcases hmatch with h | h <;> omega
    · rw [hread]
      exact CtxMap.find_assign (by rw [hfind]; rfl)

/-! ## Runs -/

variable (T N)

/-- What a run of bundles leaves. -/
def Api.readAll (api : Api M) (cs : List ReadCall) : Api M :=
  cs.foldl (fun api c => (api.read T N c).2) api

/-- Every bundle of the run is harmless where it comes. -/
def HarmlessRun : Api M → List ReadCall → Prop
  | _, [] => True
  | api, c :: cs => Harmless T api c ∧ HarmlessRun (api.read T N c).2 cs

/-- Every bundle of the run is rejected, or is a packet of another message. -/
def ForeignRun (msgId : List Trit) : Api M → List ReadCall → Prop
  | _, [] => True
  | api, c :: cs =>
    (Rejected T N api c ∨ (c.ord ≠ 0 ∧ c.msgId ≠ msgId)) ∧ ForeignRun msgId (api.read T N c).2 cs

variable {T N}

/-- A packet changes no context but its own. -/
theorem entries_read_of_ne {msgId : List Trit} (h0 : c.ord ≠ 0) (hne : c.msgId ≠ msgId) :
    (api.read T N c).2.readCtxs.entries msgId = api.readCtxs.entries msgId := by
  rw [read_packet h0]
  cases api.readCtxs.find c.msgId with
  | none => rfl
  | some ctx =>
    dsimp only
    split_ifs
    · rfl
    · unfold apiBundleReadPacket
      dsimp only
      generalize apiBundleReadPacketFromMsg T _ c.msg (c.alloc 1) = r
      obtain ⟨e | packet, ctx'⟩ := r
      · exact CtxMap.entries_assign.trans (if_neg hne)
      · dsimp only
        split_ifs
        · exact (CtxMap.entries_remove.trans (if_neg hne)).trans
            (CtxMap.entries_assign.trans (if_neg hne))
        · exact CtxMap.entries_assign.trans (if_neg hne)

theorem entries_readAll {msgId : List Trit} {cs : List ReadCall} (hharm : HarmlessRun T N api cs)
    (hforeign : ForeignRun T N msgId api cs) :
    (api.readAll T N cs).readCtxs.entries msgId = api.readCtxs.entries msgId := by
  induction cs generalizing api with
  | nil => rfl
  | cons c cs ih =>
    refine (ih hharm.2 hforeign.2).trans ?_
    rcases hforeign.1 with hrej | ⟨h0, hne⟩
    · rw [readCtxs_of_rejected hrej hharm.1]
    · exact entries_read_of_ne h0 hne

/-- **What is read of a packet**, and what is left of its message, goes by the contexts of that
message alone. -/
theorem read_packet_congr {api' : Api M} (h0 : c.ord ≠ 0)
    (hsame : api'.readCtxs.entries c.msgId = api.readCtxs.entries c.msgId) :
    (api'.read T N c).1 = (api.read T N c).1 ∧
      (api'.read T N c).2.readCtxs.entries c.msgId =
        (api.read T N c).2.readCtxs.entries c.msgId := by
  have hfind : api'.readCtxs.find c.msgId = api.readCtxs.find c.msgId := by
    rw [← CtxMap.find_entries, hsame, CtxMap.find_entries]
  have hassign : ∀ ctx, (api'.readCtxs.assign c.msgId ctx).entries c.msgId =
      (api.readCtxs.assign c.msgId ctx).entries c.msgId := by
    intro ctx
    rw [CtxMap.entries_assign, CtxMap.entries_assign, hsame]
  rw [read_packet h0, read_packet h0, hfind]
  cases api.readCtxs.find c.msgId with
  | none => exact ⟨rfl, hsame⟩
  | some ctx =>
    dsimp only
    split_ifs
    · exact ⟨rfl, hsame⟩
    · unfold apiBundleReadPacket
      dsimp only
      generalize apiBundleReadPacketFromMsg T _ c.msg (c.alloc 1) = r
      obtain ⟨e | packet, ctx'⟩ := r
      · exact ⟨rfl, hassign ctx'⟩
      · dsimp only
        split_ifs
        · refine ⟨rfl, ?_⟩
          dsimp only
          rw [CtxMap.entries_remove, CtxMap.entries_remove, hassign ctx']
        · exact ⟨rfl, hassign ctx'⟩

/-- **Exactly the harmless bundles** leave the contexts as they were if they are rejected; and after
any run of these, with packets of other messages between them, the next packet of a message is read
as it would have been before, and leaves the message in the same state. -/
theorem rejected_leaves_reader (T : Troika) (N : Ntru) (api : Api M) :
    (∀ c : ReadCall, (Rejected T N api c → (api.read T N c).2.readCtxs = api.readCtxs) ↔
      Harmless T api c) ∧
    ∀ (cs : List ReadCall) (c : ReadCall), c.ord ≠ 0 → HarmlessRun T N api cs →
      ForeignRun T N c.msgId api cs →
      ((api.readAll T N cs).read T N c).1 = (api.read T N c).1 ∧
        ((api.readAll T N cs).read T N c).2.readCtxs.entries c.msgId =
          (api.read T N c).2.readCtxs.entries c.msgId := by
  refine ⟨fun c => ⟨fun hkeeps => ?_, fun hharm hrej => readCtxs_of_rejected hrej hharm⟩,
    fun cs c h0 hharm hforeign => read_packet_congr h0 (entries_readAll hharm hforeign)⟩
  by_contra hnot
  obtain ⟨ctx, e, hord, hfind, he, hafter⟩ := read_of_not_harmless (N := N) hnot
  rw [hkeeps ⟨e, he⟩, hfind] at hafter
  have hsame := congrArg ReadContext.ord (Option.some.inj hafter)
  exact hord (by simp only at hsame; omega)

end

/-! ## A forged last packet -/

namespace Forged

/-- A permutation that moves nothing. -/
def T : Troika := ⟨id, fun _ h => h⟩

/-- No public keys are in use. -/
def N : Ntru := ⟨fun _ _ _ _ => List.replicate 9216 .zero, fun _ _ _ _ => List.length_replicate,
  fun _ _ => none⟩

def prng : List Trit := List.replicate 243 .zero

/-- A channel, with one key. -/
def channel : Channel classic := channelCreate T prng 0 (List.replicate 18 .zero)

def msgId : List Trit := List.replicate 63 .zero

/-- A header for everyone. -/
def header : HeaderArgs classic := ⟨prng, channel, none, none, none, msgId, 0, [], []⟩

/-- A transaction of the channel. -/
def transaction (ord : ℤ) (message : List Trit) : Transaction :=
  ⟨channel.mss.root, 0, [], 0, writeTag msgId ord, message, 0, 0⟩

/-- The bundle of a single transaction. -/
def single (ord : ℤ) (message : List Trit) : ReadCall := ⟨transaction ord message, [], fun _ => true⟩

/-- A reader that trusts the channel. -/
def trusting : Api classic := (Api.init prng).call T N (.addTrustedChannelPk channel.mss.root true)

/-- The bundle of the header. -/
def greeting : ReadCall := single 0 (wrapHeader T N header ⟨init, []⟩).cells

/-- The reader that has read the header. -/
def greeted : Api classic := trusting.call T N (.read greeting.tx greeting.txs greeting.alloc)

theorem reached_greeted : Reached T N (fun _ _ => True) greeted :=
  .call (.call (.init prng) trivial) trivial

theorem take_tag (ord : ℤ) (message : List Trit) :
    (transaction ord message).tag.take msgIdSize = msgId := List.take_left' List.length_replicate

theorem tagOrd_transaction {ord : ℤ} (hord : 2 * |ord| < 3 ^ 18) (message : List Trit) :
    tagOrd (transaction ord message).tag = ord := by
  have hput := get18_put18 hord []
  rw [List.append_nil] at hput
  have hdrop : (transaction ord message).tag.drop msgIdSize = put18 ord :=
    List.drop_left' List.length_replicate
  rw [tagOrd, hdrop, hput]

theorem trusted_trusting : trusting.trusted = ⟨[channel.mss.root], []⟩ := by
  show (⟨pkSetAdd true [] channel.mss.root, []⟩ : Trusted) = _
  rw [pkSetAdd, if_neg List.not_mem_nil, if_pos rfl, List.nil_append]

/-- **The reader waits for the first packet.** -/
theorem readCtxs_greeted : greeted.readCtxs =
    [(msgId, ⟨(wrapHeader T N header ⟨init, []⟩).state, channel.mss.root, 1⟩)] := by
  have hch : channel.mss.Sound T := sound_mssCreate prng (Nat.zero_le _) _
  have htrust : Trusts ⟨[channel.mss.root], []⟩ header.ch header.ep header.ch1 header.ep1 :=
    ⟨List.mem_singleton_self _, fun _ _ e he => nomatch he⟩
  have hrecipient : Recipient N header.psks header.ntruPks [] [] :=
    ⟨fun psk hpsk => (nomatch hpsk), fun pk hpk => (nomatch hpk), .inl ⟨rfl, rfl⟩⟩
  have hread := msgReadHeader_wrapHeader (N := N) (a := header)
    ⟨by decide, by decide, fun pk hpk => (nomatch hpk)⟩ hch hch
    (fun h => h.elim (absurd rfl) (absurd rfl)) htrust hrecipient true []
  have hid : greeting.tx.tag.take msgIdSize = msgId := take_tag _ _
  have h0 : tagOrd greeting.tx.tag = 0 := tagOrd_transaction (by decide) _
  have hnew : trusting.readCtxs.find (greeting.tx.tag.take msgIdSize) = none := rfl
  rw [greeted, Api.call_read, apiBundleRead_header h0 hnew (by rw [hid, trusted_trusting]; exact hread),
    apiBundleReadFirst_none (Nat.le_add_left 1 _) rfl, hid]
  rfl

/-- A packet whose size cannot be read. -/
theorem msgReadPacket_error {ord : ℤ} {pk buffer buffer' : List Trit} {alloc : Bool} {s : Spongos}
    {e : Error} (hsize : decodeSizeT buffer = (.error e, buffer')) :
    (msgReadPacket T ord pk alloc ⟨s, buffer⟩).1 = .error e := by
  have hord : TapeReader.modify (absorb T · (put18 ord)) (⟨s, buffer⟩ : Wire) =
      ((.ok () : Except Error Unit), ⟨absorb T s (put18 ord), buffer⟩) := rfl
  have hfail : pb3UnwrapAbsorbSizeT T ⟨absorb T s (put18 ord), buffer⟩ =
      (.error e, ⟨absorb T s (put18 ord), buffer'⟩) := by
    rw [pb3UnwrapAbsorbSizeT, unwrapAbsorb, hsize]
  rw [msgReadPacket, TapeReader.bind_ok hord, TapeReader.bind_error hfail]

/-- Not a packet: its size has less than no trytes. -/
def forged : ReadCall := single (-1) [.neg, .zero, .zero]

/-- The packet of another turn. -/
def stray : ReadCall := single 7 []

theorem find_greeted (ord : ℤ) (message : List Trit) :
    greeted.readCtxs.find (single ord message).msgId =
      some ⟨(wrapHeader T N header ⟨init, []⟩).state, channel.mss.root, 1⟩ := by
  have hid : (single ord message).msgId = msgId := take_tag _ _
  rw [readCtxs_greeted, hid, CtxMap.find_cons, if_pos rfl]

/-- **The forged packet is not harmless.** -/
theorem not_harmless_forged : ¬ Harmless T greeted forged := by
  intro hharm
  have hord : forged.ord = -1 := tagOrd_transaction (by decide) _
  obtain ⟨payload, hp⟩ := hharm _ (find_greeted _ _) (by rw [hord]; decide) (.inr (by rw [hord]; rfl))
  have hmsg : forged.msg = [.neg, .zero, .zero] := rfl
  have hsize : decodeSizeT [.neg, .zero, .zero] = (.error .invalidValue, []) := by decide
  rw [hmsg, msgReadPacket_error hsize] at hp
  exact nomatch hp

theorem rejected_stray : Rejected T N greeted stray := by
  have hord : stray.ord = 7 := tagOrd_transaction (by decide) _
  have hfind := find_greeted 7 []
  change greeted.readCtxs.find stray.msgId = _ at hfind
  refine ⟨.badPacketOrd, ?_⟩
  rw [read_packet (by rw [hord]; decide), hfind, hord]
  rfl

theorem harmless_stray : Harmless T greeted stray := by
  intro ctx hfind hneg
  have hord : stray.ord = 7 := tagOrd_transaction (by decide) _
  rw [hord] at hneg
  exact absurd hneg (by decide)

end Forged

/-- A reader that waits for a first packet reads it the same after a packet of another turn. -/
theorem rejected_leaves_reader_stray :
    ((Forged.greeted.readAll Forged.T Forged.N [Forged.stray]).read Forged.T Forged.N
        Forged.forged).1 =
      (Forged.greeted.read Forged.T Forged.N Forged.forged).1 :=
  ((rejected_leaves_reader Forged.T Forged.N Forged.greeted).2 [Forged.stray] Forged.forged
    (by rw [show Forged.forged.ord = -1 from Forged.tagOrd_transaction (by decide) _]; decide)
    ⟨Forged.harmless_stray, trivial⟩ ⟨.inl Forged.rejected_stray, trivial⟩).1

/-- **A forged last packet** leaves another number in the context. -/
theorem not_rejected_leaves_reader_forged :
    ¬ ∀ (M : MerkleMode) (T : Troika) (N : Ntru) (api : Api M), Reached T N (fun _ _ => True) api →
      ∀ c : ReadCall, Rejected T N api c → (api.read T N c).2.readCtxs = api.readCtxs := by
  intro hkeeps
  obtain ⟨ctx, e, hord, hfind, he, hafter⟩ :=
    read_of_not_harmless (N := Forged.N) Forged.not_harmless_forged
  rw [hkeeps _ _ _ _ Forged.reached_greeted _ ⟨e, he⟩, hfind] at hafter
  have hsame := congrArg ReadContext.ord (Option.some.inj hafter)
  exact hord (by simp only at hsame; omega)

end Mam

end Entangled
