import Entangled.Common.Tally
import Entangled.Mam.Invariant
import Entangled.Mam.Signatures
/-!
# One-time keys

A key of a tree comes from the generator: the seed of the node, the name of the channel, that of the
endpoint if the tree is one's, and the number of the key. The names are counted on by the node and
by the channel, and the number by the tree, so what goes into the generator tells the tree and the
key (`keyInput`), and a tree never goes back. A creation that fails for want of memory after the new
tree is in its list does not count on, and the next one would make a tree of the same keys; this is
left out (`Counted`).
-/

namespace Entangled

namespace Mam

open Spongos

variable {T : Troika} {N : Ntru} {M : MerkleMode}

/-! ## What is signed with -/

/-- What the generator gets of the key a tree goes on with, besides the seed. -/
def keyInput (m : Mss M) : List Trit := (m.nonces ++ [put18 m.skn]).flatten

/-- The tree `mam_msg_wrap_mssig` signs with in a call, if it signs. -/
def signer (api : Api M) : Call → Option MssRef
  | .writeHeader _ chId epId ch1Id ep1Id _ _ _ alloc bundle =>
    match headerArgs api chId epId ch1Id ep1Id, bundle with
    | .ok (i, _, k, l), [] =>
      match api.channels[i]? with
      | some ch =>
        let ch1 := k.bind fun k => api.channels[k]?
        let ep1 := l.bind fun l => ch.endpoints[l]?
        if alloc 0 = true ∧ (ch1.isSome ∨ ep1.isSome) ∧ mssRemainingSks ch.mss ≠ 0
        then some (.channel i) else none
      | none => none
    | _, _ => none
  | .writePacket _ args msgId _ checksum _ alloc _ =>
    match api.findWrite msgId with
    | some (ctx, m) =>
      if args = true ∧ (alloc 0 = true ∧ alloc 1 = true) ∧ checksum = .sig ∧ mssRemainingSks m ≠ 0
      then some ctx.mss else none
    | none => none
  | _ => none

/-- What goes into the generator for the keys a run signs with, in their order. -/
def keysUsed (T : Troika) (N : Ntru) : Api M → List Call → List (List Trit)
  | _, [] => []
  | api, c :: cs =>
    ((signer api c).bind api.mss).toList.map keyInput ++ keysUsed T N (api.call T N c) cs

/-- A creation does not fail between the list and the counter, and its number fits a name. -/
def Counted (api : Api M) : Call → Prop
  | .channelCreate _ alloc =>
    2 * api.channelOrd < 3 ^ 18 ∧ (alloc 0 = true → alloc 1 = true)
  | .endpointCreate _ _ alloc =>
    (∀ ch ∈ api.channels, 2 * ch.endpointOrd < 3 ^ 18) ∧ (alloc 0 = true → alloc 1 = true)
  | _ => True

/-! ## Names -/

/-- Whose tree: the name of the channel, and that of the endpoint. -/
abbrev Owner := List Trit × Option (List Trit)

/-- The size of the names of the library. -/
def ordSize : List Trit := nameSizeTrits (put18 0)

theorem nameSizeTrits_put18 (k : ℤ) : nameSizeTrits (put18 k) = ordSize := rfl

/-- Two numbers that fit a name. -/
theorem put18_inj {k l : ℤ} (hk : 2 * |k| < 3 ^ 18) (hl : 2 * |l| < 3 ^ 18)
    (h : put18 k = put18 l) : k = l := by
  rw [← get18_put18 hk [], ← get18_put18 hl [], h]

namespace Channel

/-- The key the tree of the channel, or of an endpoint of it, goes on with. -/
def nextKey (ch : Channel M) : Option (List Trit) → ℕ
  | none => ch.mss.skn
  | some name => ((Named.lookup Endpoint.name ch.endpoints name).map (·.mss.skn)).getD 0

/-- The endpoints have been counted, and the trees have their names in them. -/
structure Numbered (prng : List Trit) (ch : Channel M) : Prop where
  nodup : (ch.endpoints.map Endpoint.name).Nodup
  names : ∀ ep ∈ ch.endpoints, ∃ k, 0 ≤ k ∧ k < ch.endpointOrd ∧ ep.name = put18 k
  ord_nonneg : 0 ≤ ch.endpointOrd
  nameSize : ch.nameSize = ordSize
  length_name : ch.name.length = 18
  prng_eq : ch.mss.prng = prng
  nonces : ch.mss.nonces = [ordSize, ch.name, [], []]
  endpoints : ∀ ep ∈ ch.endpoints,
    ep.mss.prng = prng ∧ ep.mss.nonces = [ordSize, ch.name, ordSize, ep.name]

end Channel

namespace Api

/-- The channels have been counted. -/
structure Numbered (api : Api M) : Prop where
  nodup : (api.channels.map Channel.name).Nodup
  names : ∀ ch ∈ api.channels, ∃ k, 0 ≤ k ∧ k < api.channelOrd ∧ ch.name = put18 k
  ord_nonneg : 0 ≤ api.channelOrd
  channels : ∀ ch ∈ api.channels, ch.Numbered api.prng

/-- The key a tree goes on with, the first one for a tree that is not there. -/
def nextKey (api : Api M) (o : Owner) : ℕ :=
  ((Named.lookup Channel.name api.channels o.1).map (·.nextKey o.2)).getD 0

/-- Whose tree it is at a place. -/
def owner (api : Api M) : MssRef → Option Owner
  | .channel i => api.channels[i]?.map fun ch => (ch.name, none)
  | .endpoint i j =>
    api.channels[i]?.bind fun ch => ch.endpoints[j]?.map fun ep => (ch.name, some ep.name)

end Api

/-- The key a call takes. -/
def keyTaken (api : Api M) (c : Call) : Option (Owner × ℕ) :=
  (signer api c).bind fun r => (api.owner r).bind fun o => (api.mss r).map fun m => (o, m.skn)

/-- What goes into the generator for the key of an owner. -/
def inputOf : Owner × ℕ → List Trit
  | ((name, none), n) => ordSize ++ name ++ put18 n
  | ((name, some name'), n) => ordSize ++ name ++ (ordSize ++ name') ++ put18 n

/-- Names of the usual length, and a number that a tree can have. -/
def Fits (p : Owner × ℕ) : Prop :=
  p.1.1.length = 18 ∧ (∀ name ∈ p.1.2, name.length = 18) ∧ p.2 < 2 ^ 20

/-- Whose key it is, and which, can be told from what goes into the generator. -/
theorem inputOf_inj {p q : Owner × ℕ} (hp : Fits p) (hq : Fits q) (h : inputOf p = inputOf q) :
    p = q := by
  obtain ⟨⟨name, e⟩, n⟩ := p
  obtain ⟨⟨name', e'⟩, n'⟩ := q
  obtain ⟨hname, he, hn⟩ := hp
  obtain ⟨hname', he', hn'⟩ := hq
  dsimp only at hname he hn hname' he' hn'
  have hnumber : put18 (n : ℤ) = put18 n' → n = n' := by
    intro heq
    have hcast : (n : ℤ) = n' :=
      put18_inj (by rw [Nat.abs_cast]; omega) (by rw [Nat.abs_cast]; omega) heq
    exact Int.ofNat.inj hcast
  rcases e with _ | e <;> rcases e' with _ | e'
  · obtain ⟨hnames, hnum⟩ := List.append_inj h (by simp [hname, hname'])
    rw [List.append_cancel_left hnames, hnumber hnum]
  · have hlen := congrArg List.length h
    simp only [inputOf, List.length_append, length_put18, hname, hname', he' e' rfl] at hlen
    omega
  · have hlen := congrArg List.length h
    simp only [inputOf, List.length_append, length_put18, hname, hname', he e rfl] at hlen
    omega
  · obtain ⟨hfront, hnum⟩ := List.append_inj h (by
      simp [hname, hname', he e rfl, he' e' rfl])
    obtain ⟨hnames, hends⟩ := List.append_inj hfront (by simp [hname, hname'])
    rw [List.append_cancel_left hnames, List.append_cancel_left hends, hnumber hnum]

/-! ## One tree changed -/

theorem mem_modify_at {α : Type} {l : List α} {i : ℕ} {f : α → α} {x y : α} (hx : l[i]? = some x)
    (hy : y ∈ l.modify i f) : y ∈ l ∨ y = f x := by
  obtain ⟨j, hj⟩ := List.mem_iff_getElem?.mp hy
  rw [List.getElem?_modify] at hj
  split_ifs at hj with hij
  · subst hij
    rw [hx] at hj
    exact .inr (Option.some.inj hj).symm
  · exact .inl (List.mem_of_getElem? (by simpa using hj))

namespace Api

variable {api : Api M} {i j : ℕ} {ch : Channel M} {ep : Endpoint M} {f : Channel M → Channel M}
  {o : Owner} {r : MssRef} {m m' : Mss M}

theorem Numbered.modify (h : api.Numbered) (hch : api.channels[i]? = some ch)
    (hname : ∀ ch, (f ch).name = ch.name) (hf : (f ch).Numbered api.prng) :
    Numbered { api with channels := api.channels.modify i f } where
  nodup := by
    rw [Named.map_modify hname]
    exact h.nodup
  names := by
    intro x hx
    rcases mem_modify_at hch hx with hold | rfl
    · exact h.names x hold
    · rw [hname]
      exact h.names ch (List.mem_of_getElem? hch)
  ord_nonneg := h.ord_nonneg
  channels := by
    intro x hx
    rcases mem_modify_at hch hx with hold | rfl
    · exact h.channels x hold
    · exact hf

theorem nextKey_modify (h : api.Numbered) (hch : api.channels[i]? = some ch)
    (hname : (f ch).name = ch.name) :
    nextKey { api with channels := api.channels.modify i f } o =
      if ch.name = o.1 then (f ch).nextKey o.2 else api.nextKey o := by
  unfold nextKey
  rw [Named.lookup_modify h.nodup hch hname]
  split_ifs <;> rfl

theorem nextKey_at (h : api.Numbered) (hch : api.channels[i]? = some ch)
    (e : Option (List Trit)) : api.nextKey (ch.name, e) = ch.nextKey e := by
  unfold nextKey
  rw [Named.lookup_of_getElem? h.nodup hch]
  rfl

theorem nextKey_of_owner (h : api.Numbered) (hm : api.mss r = some m) (ho : api.owner r = some o) :
    api.nextKey o = m.skn := by
  cases r with
  | channel i =>
    obtain ⟨ch, hch, rfl⟩ := Option.map_eq_some_iff.mp hm
    rw [owner, hch] at ho
    obtain rfl := Option.some.inj ho
    exact nextKey_at h hch none
  | endpoint i j =>
    obtain ⟨ep, hep, rfl⟩ := Option.map_eq_some_iff.mp hm
    obtain ⟨ch, hch, hep⟩ := Option.bind_eq_some_iff.mp hep
    rw [owner, hch, Option.bind_some, hep] at ho
    obtain rfl := Option.some.inj ho
    rw [nextKey_at h hch]
    unfold Channel.nextKey
    dsimp only
    rw [Named.lookup_of_getElem? (h.channels ch (List.mem_of_getElem? hch)).nodup hep]
    rfl

/-- **A tree in the place of another** of its owner. -/
theorem nextKey_setMss (h : api.Numbered) (hm : api.mss r = some m) (ho : api.owner r = some o)
    (o' : Owner) : (api.setMss m' r).nextKey o' = if o = o' then m'.skn else api.nextKey o' := by
  cases r with
  | channel i =>
    obtain ⟨ch, hch, rfl⟩ := Option.map_eq_some_iff.mp hm
    rw [owner, hch] at ho
    obtain rfl := Option.some.inj ho
    obtain ⟨name, e⟩ := o'
    refine (nextKey_modify h hch rfl).trans ?_
    by_cases hname : ch.name = name
    · subst hname
      rw [if_pos rfl, nextKey_at h hch]
      cases e with
      | none => rw [if_pos rfl]; rfl
      | some e => rw [if_neg (by simp)]; rfl
    · rw [if_neg hname, if_neg (by simp [hname])]
  | endpoint i j =>
    obtain ⟨ep, hep, rfl⟩ := Option.map_eq_some_iff.mp hm
    obtain ⟨ch, hch, hep⟩ := Option.bind_eq_some_iff.mp hep
    rw [owner, hch, Option.bind_some, hep] at ho
    obtain rfl := Option.some.inj ho
    obtain ⟨name, e⟩ := o'
    refine (nextKey_modify h hch rfl).trans ?_
    by_cases hname : ch.name = name
    · subst hname
      rw [if_pos rfl, nextKey_at h hch]
      cases e with
      | none => rw [if_neg (by simp)]; rfl
      | some e =>
        have hlookup := Named.lookup_modify (k := e)
          (f := fun ep : Endpoint M => { ep with mss := m' })
          (h.channels ch (List.mem_of_getElem? hch)).nodup hep rfl
        unfold Channel.nextKey
        dsimp only
        rw [hlookup]
        by_cases he : ep.name = e
        · rw [if_pos he, if_pos (by rw [he])]
          rfl
        · rw [if_neg he, if_neg (by simp [he])]
    · rw [if_neg hname, if_neg (by simp [hname])]

theorem numbered_setMss (h : api.Numbered) (hm : api.mss r = some m) (hprng : m'.prng = m.prng)
    (hnonces : m'.nonces = m.nonces) : (api.setMss m' r).Numbered := by
  cases r with
  | channel i =>
    obtain ⟨ch, hch, rfl⟩ := Option.map_eq_some_iff.mp hm
    have hnum := h.channels ch (List.mem_of_getElem? hch)
    exact h.modify hch (fun _ => rfl) ⟨hnum.nodup, hnum.names, hnum.ord_nonneg, hnum.nameSize,
      hnum.length_name, hprng.trans hnum.prng_eq, hnonces.trans hnum.nonces, hnum.endpoints⟩
  | endpoint i j =>
    obtain ⟨ep, hep, rfl⟩ := Option.map_eq_some_iff.mp hm
    obtain ⟨ch, hch, hep⟩ := Option.bind_eq_some_iff.mp hep
    have hnum := h.channels ch (List.mem_of_getElem? hch)
    refine h.modify hch (fun _ => rfl) ⟨?_, fun x hx => ?_, hnum.ord_nonneg, hnum.nameSize,
      hnum.length_name, hnum.prng_eq, hnum.nonces, fun x hx => ?_⟩
    · have hmap : (ch.endpoints.modify j fun ep => { ep with mss := m' }).map Endpoint.name =
          ch.endpoints.map Endpoint.name := Named.map_modify fun _ => rfl
      dsimp only
      rw [hmap]
      exact hnum.nodup
    · rcases mem_modify_at hep hx with hold | rfl
      · exact hnum.names x hold
      · exact hnum.names ep (List.mem_of_getElem? hep)
    · rcases mem_modify_at hep hx with hold | rfl
      · exact hnum.endpoints x hold
      · have hkeys := hnum.endpoints ep (List.mem_of_getElem? hep)
        exact ⟨hprng.trans hkeys.1, hnonces.trans hkeys.2⟩

end Api

/-! ## What a call does -/

/-- No tree goes back, and the key that was taken is behind its tree. -/
structure Advance (api api' : Api M) (took : Option (Owner × ℕ)) : Prop where
  numbered : api'.Numbered
  grows : ∀ o, api.nextKey o ≤ api'.nextKey o
  takes : ∀ o n, took = some (o, n) → api.nextKey o = n ∧ n < api'.nextKey o

section Advance

variable {api api' api₁ : Api M} {took : Option (Owner × ℕ)} {r : MssRef} {m : Mss M} {i : ℕ}
  {ch : Channel M}

theorem Advance.refl (h : api.Numbered) : Advance api api none :=
  ⟨h, fun _ => le_rfl, fun _ _ hnone => nomatch hnone⟩

/-- The trees and the counters are all that matters. -/
theorem Advance.congr (h : Advance api api₁ took) (hchannels : api'.channels = api₁.channels)
    (hord : api'.channelOrd = api₁.channelOrd) (hprng : api'.prng = api₁.prng) :
    Advance api api' took := by
  have hnext : ∀ o, api'.nextKey o = api₁.nextKey o := by
    intro o
    rw [Api.nextKey, Api.nextKey, hchannels]
  refine ⟨⟨?_, ?_, ?_, ?_⟩, fun o => ?_, fun o n ho => ?_⟩
  · rw [hchannels]
    exact h.numbered.nodup
  · rw [hchannels, hord]
    exact h.numbered.names
  · rw [hord]
    exact h.numbered.ord_nonneg
  · rw [hchannels, hprng]
    exact h.numbered.channels
  · rw [hnext]
    exact h.grows o
  · rw [hnext]
    exact h.takes o n ho

theorem exists_owner (hm : api.mss r = some m) : ∃ o, api.owner r = some o := by
  cases r with
  | channel i =>
    obtain ⟨ch, hch, -⟩ := Option.map_eq_some_iff.mp hm
    exact ⟨(ch.name, none), by rw [Api.owner, hch]; rfl⟩
  | endpoint i j =>
    obtain ⟨ep, hep, -⟩ := Option.map_eq_some_iff.mp hm
    obtain ⟨ch, hch, hep⟩ := Option.bind_eq_some_iff.mp hep
    exact ⟨(ch.name, some ep.name), by rw [Api.owner, hch, Option.bind_some, hep]; rfl⟩

/-- A tree that signs goes on to its next key. -/
theorem Advance.sign (h : api.Numbered) (hm : api.mss r = some m) (hleft : mssRemainingSks m ≠ 0) :
    Advance api (api.setMss (mssNext T m) r) ((api.owner r).map fun o => (o, m.skn)) := by
  obtain ⟨o, ho⟩ := exists_owner hm
  have hskn : (mssNext T m).skn = m.skn + 1 := skn_mssNext hleft
  have hat := Api.nextKey_of_owner h hm ho
  refine ⟨Api.numbered_setMss h hm prng_mssNext nonces_mssNext, fun o' => ?_,
    fun o' n heq => ?_⟩
  · rw [Api.nextKey_setMss h hm ho]
    split_ifs with hsame
    · rw [← hsame, hat, hskn]
      exact Nat.le_succ _
    · exact le_rfl
  · rw [ho] at heq
    obtain ⟨rfl, rfl⟩ := Prod.mk.inj (Option.some.inj heq)
    rw [Api.nextKey_setMss h hm ho, if_pos rfl, hskn]
    exact ⟨hat, Nat.lt_succ_self _⟩

/-- A tree that is put back as it was. -/
theorem Advance.rest (h : api.Numbered) (hm : api.mss r = some m) :
    Advance api (api.setMss m r) none := by
  obtain ⟨o, ho⟩ := exists_owner hm
  refine ⟨Api.numbered_setMss h hm rfl rfl, fun o' => ?_, fun _ _ hnone => nomatch hnone⟩
  rw [Api.nextKey_setMss h hm ho]
  split_ifs with hsame
  · rw [← hsame, Api.nextKey_of_owner h hm ho]
  · exact le_rfl

theorem numbered_channelCreate (prng : List Trit) (height : ℕ) (k : ℤ) :
    (Mam.channelCreate T prng height (put18 k) : Channel M).Numbered prng where
  nodup := List.nodup_nil
  names _ hep := absurd hep List.not_mem_nil
  ord_nonneg := le_rfl
  nameSize := nameSizeTrits_put18 k
  length_name := length_put18 k
  prng_eq := rfl
  nonces := by
    show [nameSizeTrits (put18 k), put18 k, [], []] = _
    rw [nameSizeTrits_put18]
    rfl
  endpoints _ hep := absurd hep List.not_mem_nil

/-- A channel that is made. -/
theorem Advance.channelCreate (h : api.Numbered) (hfits : 2 * api.channelOrd < 3 ^ 18)
    (height : ℕ) :
    Advance api { api with
      channels := api.channels ++ [Mam.channelCreate T api.prng height (put18 api.channelOrd)]
      channelOrd := api.channelOrd + 1 } none := by
  have hnonneg := h.ord_nonneg
  have hnew : put18 api.channelOrd ∉ api.channels.map Channel.name := by
    intro hmem
    obtain ⟨ch, hch, hname⟩ := List.mem_map.mp hmem
    obtain ⟨k, hk, hlt, heq⟩ := h.names ch hch
    have hsame : k = api.channelOrd :=
      put18_inj (by rw [abs_of_nonneg hk]; omega) (by rw [abs_of_nonneg hnonneg]; omega)
        (heq ▸ hname)
    omega
  refine ⟨⟨Named.nodup_append_singleton h.nodup hnew, fun ch hch => ?_, by dsimp only; omega,
    fun ch hch => ?_⟩, fun o => ?_, fun _ _ hnone => nomatch hnone⟩
  · rcases List.mem_append.mp hch with hold | hch
    · obtain ⟨k, hk, hlt, heq⟩ := h.names ch hold
      exact ⟨k, hk, by dsimp only; omega, heq⟩
    · obtain rfl := List.mem_singleton.mp hch
      exact ⟨api.channelOrd, hnonneg, by dsimp only; omega, rfl⟩
  · rcases List.mem_append.mp hch with hold | hch
    · exact h.channels ch hold
    · obtain rfl := List.mem_singleton.mp hch
      exact numbered_channelCreate api.prng height api.channelOrd
  · unfold Api.nextKey
    rw [Named.lookup_append hnew]
    split_ifs with hname
    · have hnone : Named.lookup Channel.name api.channels o.1 = none :=
        Named.lookup_eq_none (hname ▸ hnew)
      rw [hnone]
      exact Nat.zero_le _
    · exact le_rfl

/-- An endpoint that is made. -/
theorem Advance.endpointCreate (h : api.Numbered) (hch : api.channels[i]? = some ch)
    (hfits : 2 * ch.endpointOrd < 3 ^ 18) (height : ℕ) :
    Advance api { api with
      channels := (api.channels.modify i fun c => { c with
          endpoints := c.endpoints ++ [Mam.endpointCreate T api.prng height ch.nameSize ch.name
            (put18 ch.endpointOrd)] }).modify i fun c =>
              { c with endpointOrd := c.endpointOrd + 1 } } none := by
  have hnum := h.channels ch (List.mem_of_getElem? hch)
  have hnonneg := hnum.ord_nonneg
  have hnew : put18 ch.endpointOrd ∉ ch.endpoints.map Endpoint.name := by
    intro hmem
    obtain ⟨ep, hep, hname⟩ := List.mem_map.mp hmem
    obtain ⟨k, hk, hlt, heq⟩ := hnum.names ep hep
    have hsame : k = ch.endpointOrd :=
      put18_inj (by rw [abs_of_nonneg hk]; omega) (by rw [abs_of_nonneg hnonneg]; omega)
        (heq ▸ hname)
    omega
  rw [List.modify_modify_eq]
  refine ⟨h.modify hch (fun _ => rfl) ⟨Named.nodup_append_singleton hnum.nodup hnew,
    fun ep hep => ?_, ?_, hnum.nameSize, hnum.length_name, hnum.prng_eq, hnum.nonces,
    fun ep hep => ?_⟩, fun o => ?_, fun _ _ hnone => nomatch hnone⟩
  · rcases List.mem_append.mp hep with hold | hep
    · obtain ⟨k, hk, hlt, heq⟩ := hnum.names ep hold
      exact ⟨k, hk, by simp only [Function.comp_apply]; omega, heq⟩
    · obtain rfl := List.mem_singleton.mp hep
      exact ⟨ch.endpointOrd, hnonneg, by simp only [Function.comp_apply]; omega, rfl⟩
  · simp only [Function.comp_apply]
    omega
  · rcases List.mem_append.mp hep with hold | hep
    · exact hnum.endpoints ep hold
    · obtain rfl := List.mem_singleton.mp hep
      refine ⟨rfl, ?_⟩
      show [ch.nameSize, ch.name, nameSizeTrits (put18 ch.endpointOrd), put18 ch.endpointOrd] = _
      rw [hnum.nameSize, nameSizeTrits_put18]
      rfl
  · obtain ⟨name, e⟩ := o
    rw [Api.nextKey_modify h hch rfl]
    by_cases hname : ch.name = name
    · subst hname
      rw [if_pos rfl, Api.nextKey_at h hch]
      cases e with
      | none => exact le_rfl
      | some e =>
        unfold Channel.nextKey
        simp only [Function.comp_apply]
        rw [Named.lookup_append hnew]
        split_ifs with he
        · have hnone : Named.lookup Endpoint.name ch.endpoints e = none :=
            Named.lookup_eq_none (he ▸ hnew)
          rw [hnone]
          exact Nat.zero_le _
        · exact le_rfl
    · rw [if_neg hname]

/-- A message that is counted. -/
theorem numbered_msgOrd (h : api.Numbered) (hch : api.channels[i]? = some ch)
    (g : List Trit → List Trit) :
    Api.Numbered { api with
      channels := api.channels.modify i fun ch => { ch with msgOrd := g ch.msgOrd } } := by
  have hnum := h.channels ch (List.mem_of_getElem? hch)
  exact h.modify hch (fun _ => rfl) ⟨hnum.nodup, hnum.names, hnum.ord_nonneg, hnum.nameSize,
    hnum.length_name, hnum.prng_eq, hnum.nonces, hnum.endpoints⟩

theorem nextKey_msgOrd (h : api.Numbered) (hch : api.channels[i]? = some ch)
    (g : List Trit → List Trit) (o : Owner) :
    Api.nextKey { api with
      channels := api.channels.modify i fun ch => { ch with msgOrd := g ch.msgOrd } } o =
        api.nextKey o := by
  obtain ⟨name, e⟩ := o
  rw [Api.nextKey_modify h hch rfl]
  split_ifs with hname
  · obtain rfl : ch.name = name := hname
    rw [Api.nextKey_at h hch]
    cases e <;> rfl
  · rfl

theorem keyTaken_of_none {c : Call} (hc : signer api c = none) : keyTaken api c = none := by
  rw [keyTaken, hc]
  rfl

theorem keyTaken_of_signer {c : Call} (hc : signer api c = some r) (hm : api.mss r = some m) :
    keyTaken api c = (api.owner r).map fun o => (o, m.skn) := by
  rw [keyTaken, hc, Option.bind_some, hm]
  cases api.owner r <;> rfl

/-- The call of a packet that is to be written. -/
def WriteCall.call (c : WriteCall) : Call :=
  .writePacket c.now c.args c.msgId c.payload c.checksum c.isLastPacket c.alloc c.bundle

theorem signer_writable {c : WriteCall} {ctx : WriteContext} (hw : Writable api c ctx m) :
    signer api c.call =
      if c.checksum = .sig ∧ mssRemainingSks m ≠ 0 then some ctx.mss else none := by
  unfold signer WriteCall.call
  simp only [hw.found, hw.args, hw.memory, true_and]

theorem signer_refused {c : WriteCall} (hnot : ¬ ∃ ctx m, Writable api c ctx m) :
    signer api c.call = none := by
  unfold signer WriteCall.call
  rcases hfound : api.findWrite c.msgId with _ | ⟨ctx, m⟩
  · simp only [hfound]
  · simp only [hfound]
    exact if_neg fun hall => hnot ⟨ctx, m, hall.1, hfound, hall.2.1⟩

/-- **A packet** is signed or not, and its tree is all that changes. -/
theorem channels_writePacket (T : Troika) (api : Api M) (c : WriteCall) :
    ((api.write T c).2.1.channelOrd = api.channelOrd ∧ (api.write T c).2.1.prng = api.prng) ∧
      ((∃ r m, signer api c.call = some r ∧ api.mss r = some m ∧ mssRemainingSks m ≠ 0 ∧
        (api.write T c).2.1.channels = (api.setMss (mssNext T m) r).channels) ∨
      signer api c.call = none ∧ ((api.write T c).2.1.channels = api.channels ∨
        ∃ r m, api.mss r = some m ∧
          (api.write T c).2.1.channels = (api.setMss m r).channels)) := by
  have hord : ∀ r (m : Mss M), (api.setMss m r).channelOrd = api.channelOrd ∧
      (api.setMss m r).prng = api.prng := by
    intro r m
    cases r <;> exact ⟨rfl, rfl⟩
  rcases write_cases api c with ⟨ctx, m, hw, hleft⟩ | ⟨ctx, m, hw, hsig, hleft⟩ | hnot
  · have hm := (findWrite_eq hw.found).2
    rw [write_ok hw hleft, signer_writable hw]
    refine ⟨hord _ _, ?_⟩
    by_cases hsig : c.checksum = .sig
    · refine .inl ⟨ctx.mss, m, if_pos ⟨hsig, hleft hsig⟩, hm, hleft hsig, ?_⟩
      rw [hsig]
      rfl
    · refine .inr ⟨if_neg fun hall => hsig hall.1, .inr ⟨ctx.mss, m, hm, ?_⟩⟩
      have hafter : mssAfter T m c.checksum = m := by
        cases hc : c.checksum with
        | none => rfl
        | mac => rfl
        | sig => exact absurd hc hsig
      rw [hafter]
  · have hm := (findWrite_eq hw.found).2
    obtain ⟨s, -, hs⟩ := write_exhausted (T := T) hw hsig hleft
    rw [hs, signer_writable hw]
    exact ⟨hord _ _, .inr ⟨if_neg fun hall => hall.2 hleft, .inr ⟨ctx.mss, m, hm, rfl⟩⟩⟩
  · obtain ⟨e, he⟩ := write_refused (T := T) hnot
    rw [he]
    exact ⟨⟨rfl, rfl⟩, .inr ⟨signer_refused hnot, .inl rfl⟩⟩

theorem advance_writePacket (h : api.Numbered) (c : WriteCall) :
    Advance api (api.write T c).2.1 (keyTaken api c.call) := by
  obtain ⟨⟨hord, hprng⟩, ⟨r, m, hsigner, hm, hleft, hchannels⟩ |
    ⟨hsigner, hchannels | ⟨r, m, hm, hchannels⟩⟩⟩ := channels_writePacket T api c
  · rw [keyTaken_of_signer hsigner hm]
    refine (Advance.sign h hm hleft).congr hchannels (hord.trans ?_) (hprng.trans ?_) <;>
      cases r <;> rfl
  · rw [keyTaken_of_none hsigner]
    exact (Advance.refl h).congr hchannels hord hprng
  · rw [keyTaken_of_none hsigner]
    refine (Advance.rest h hm).congr hchannels (hord.trans ?_) (hprng.trans ?_) <;>
      cases r <;> rfl

/-- The tree of the channel behind a header: it has signed what is announced, if it could. -/
theorem mss_msgWriteHeader (prng msgId : List Trit) (ch : Channel M) (ep : Option (Endpoint M))
    (ch1 : Option (Channel M)) (ep1 : Option (Endpoint M)) (msgTypeId : ℤ) (psks : List Psk)
    (ntruPks : List (List Trit)) :
    (msgWriteHeader T N prng ch ep ch1 ep1 msgId msgTypeId psks ntruPks).2.1 =
      if (ch1.isSome ∨ ep1.isSome) ∧ mssRemainingSks ch.mss ≠ 0 then mssNext T ch.mss
      else ch.mss := by
  have hsig : ∀ t, (msgWrapMssig T ch.mss t).2.1 =
      if mssRemainingSks ch.mss ≠ 0 then mssNext T ch.mss else ch.mss := by
    intro t
    by_cases hleft : mssRemainingSks ch.mss = 0
    · simp [msgWrapMssig, mssSignAndNext, mssSign, hleft]
    · simp [msgWrapMssig, mssSignAndNext, mssSign, hleft]
  have hpubkey : ∀ t, (msgWrapPubkey T ch ep ch1 ep1 t).2.1 =
      if (ch1.isSome ∨ ep1.isSome) ∧ mssRemainingSks ch.mss ≠ 0 then mssNext T ch.mss
      else ch.mss := by
    intro t
    unfold msgWrapPubkey msgWrapSignedid
    cases ch1 with
    | some ch1 => simp only [hsig, Option.isSome_some, true_or, true_and]
    | none =>
      cases ep1 with
      | some ep1 => simp only [hsig, Option.isSome_some, or_true, true_and]
      | none => cases ep <;> simp
  have hthis := hpubkey (msgChannelWrap T 0 ch.mss.root ⟨init, []⟩)
  unfold msgWriteHeader
  dsimp only
  generalize msgWrapPubkey T ch ep ch1 ep1 (msgChannelWrap T 0 ch.mss.root ⟨init, []⟩) = r
    at hthis ⊢
  obtain ⟨e | u, m, t⟩ := r <;> exact hthis

/-- What goes before changes no tree. -/
theorem Advance.after (h : Advance api₁ api' took) (hnext : ∀ o, api₁.nextKey o = api.nextKey o) :
    Advance api api' took :=
  ⟨h.numbered, fun o => hnext o ▸ h.grows o, fun o n ho => hnext o ▸ h.takes o n ho⟩

/-- **A header**, behind the look-ups. -/
theorem advance_writeHeaderAt (h : api.Numbered) (hch : api.channels[i]? = some ch) (now : ℕ)
    (ep : Option (Endpoint M)) (ch1 : Option (Channel M)) (ep1 : Option (Endpoint M)) (ref : MssRef)
    (psks : List Psk) (ntruPks : List (List Trit)) (msgTypeId : ℤ) (alloc : ℕ → Bool)
    (bundle : List Transaction) :
    Advance api (apiBundleWriteHeaderAt T N api now i ch ep ch1 ep1 ref psks ntruPks msgTypeId alloc
        bundle).2.1
      (if alloc 0 = true ∧ (ch1.isSome ∨ ep1.isSome) ∧ mssRemainingSks ch.mss ≠ 0
        then some ((ch.name, none), ch.mss.skn) else none) := by
  let count : List Trit → List Trit := fun ord => Trit.ofInts (addAssign (Trit.toInts ord) 1)
  let counted : Api M := { api with
    channels := api.channels.modify i fun ch => { ch with msgOrd := count ch.msgOrd } }
  have hnum : counted.Numbered := numbered_msgOrd h hch count
  have hnext : ∀ o, counted.nextKey o = api.nextKey o := nextKey_msgOrd h hch count
  have hat : counted.channels[i]? = some { ch with msgOrd := count ch.msgOrd } := by
    simp [counted, hch]
  have hm : counted.mss (.channel i) = some ch.mss := by rw [Api.mss, hat]; rfl
  have howner : counted.owner (.channel i) = some (ch.name, none) := by rw [Api.owner, hat]; rfl
  have hwritten : Advance api (counted.setMss (msgWriteHeader T N api.prng ch ep ch1 ep1
      (msgIdOf T ch) msgTypeId psks ntruPks).2.1 (.channel i))
      (if (ch1.isSome ∨ ep1.isSome) ∧ mssRemainingSks ch.mss ≠ 0
        then some ((ch.name, none), ch.mss.skn) else none) := by
    rw [mss_msgWriteHeader]
    split_ifs with hsigns
    · have hsign := Advance.sign (T := T) hnum hm hsigns.2
      rw [howner] at hsign
      exact hsign.after hnext
    · exact (Advance.rest hnum hm).after hnext
  unfold apiBundleWriteHeaderAt
  dsimp only
  cases halloc : alloc 0 with
  | false =>
    rw [if_pos rfl, if_neg fun hall => Bool.false_ne_true hall.1]
    exact (Advance.refl hnum).after hnext
  | true =>
    simp only [Bool.true_eq_false, if_false, true_and]
    generalize msgWriteHeader T N api.prng ch ep ch1 ep1 (msgIdOf T ch) msgTypeId psks ntruPks = r
      at hwritten ⊢
    obtain ⟨e | u, m, t⟩ := r
    · exact hwritten
    · dsimp only
      by_cases hlater : alloc 1 = false
      · rw [if_pos hlater]
        exact hwritten.congr rfl rfl rfl
      · rw [if_neg hlater]
        exact hwritten.congr rfl rfl rfl

theorem advance_writeHeader (h : api.Numbered) (now : ℕ) (chId : List Trit)
    (epId ch1Id ep1Id : Option (List Trit)) (psks : List Psk) (ntruPks : List (List Trit))
    (msgTypeId : ℤ) (alloc : ℕ → Bool) (bundle : List Transaction) :
    Advance api (apiBundleWriteHeader T N api now chId epId ch1Id ep1Id psks ntruPks msgTypeId alloc
        bundle).2.1
      (keyTaken api (.writeHeader now chId epId ch1Id ep1Id psks ntruPks msgTypeId alloc
        bundle)) := by
  unfold apiBundleWriteHeader keyTaken signer
  dsimp only
  rcases bundle with _ | ⟨tx, bundle⟩
  · rw [if_neg (by simp)]
    rcases headerArgs api chId epId ch1Id ep1Id with e | ⟨i, j, k, l⟩
    · exact Advance.refl h
    · dsimp only
      rcases hch : api.channels[i]? with _ | ch
      · exact Advance.refl h
      · dsimp only
        have hat := advance_writeHeaderAt (T := T) (N := N) h hch now
          (j.bind fun j => ch.endpoints[j]?) (k.bind fun k => api.channels[k]?)
          (l.bind fun l => ch.endpoints[l]?) (speakerRef i j k l) psks ntruPks msgTypeId alloc []
        split_ifs at hat ⊢
        · rw [Option.bind_some, Api.owner, Api.mss, hch]
          exact hat
        · exact hat
  · rw [if_pos (by simp)]
    rcases headerArgs api chId epId ch1Id ep1Id with e | ⟨i, j, k, l⟩ <;> exact Advance.refl h

/-- Reading leaves the seed and the counters alone. -/
theorem kept_read_ord (api : Api M) (c : ReadCall) :
    (api.read T N c).2.channelOrd = api.channelOrd ∧ (api.read T N c).2.prng = api.prng := by
  unfold Api.read apiBundleRead
  dsimp only
  split_ifs
  · exact ⟨rfl, rfl⟩
  · unfold apiBundleReadHeader
    dsimp only
    generalize msgReadHeader T N _ _ _ _ _ _ _ = r
    obtain ⟨e | pk, trusted, t⟩ := r
    · exact ⟨rfl, rfl⟩
    · unfold apiBundleReadFirst
      dsimp only
      generalize (c.tx :: c.txs)[(_ : ℕ)]? = tx
      cases tx with
      | none => dsimp only; split_ifs <;> exact ⟨rfl, rfl⟩
      | some tx =>
        dsimp only
        generalize apiBundleReadPacketFromMsg T _ _ (c.alloc 1) = r
        obtain ⟨e | packet, ctx⟩ := r
        · exact ⟨rfl, rfl⟩
        · dsimp only
          split_ifs <;> exact ⟨rfl, rfl⟩
  · cases api.readCtxs.find (c.tx.tag.take msgIdSize) with
    | none => exact ⟨rfl, rfl⟩
    | some ctx =>
      dsimp only
      split_ifs
      · exact ⟨rfl, rfl⟩
      · unfold apiBundleReadPacket
        dsimp only
        generalize apiBundleReadPacketFromMsg T _ _ (c.alloc 1) = r
        obtain ⟨e | packet, ctx⟩ := r
        · exact ⟨rfl, rfl⟩
        · dsimp only
          split_ifs <;> exact ⟨rfl, rfl⟩

/-- **Every call.** -/
theorem advance_call (h : api.Numbered) {c : Call} (hc : Counted api c) :
    Advance api (api.call T N c) (keyTaken api c) := by
  cases c with
  | addTrustedChannelPk pk alloc => exact (Advance.refl h).congr rfl rfl rfl
  | addTrustedEndpointPk pk alloc => exact (Advance.refl h).congr rfl rfl rfl
  | addNtruSk ntruSk alloc =>
    show Advance api (apiAddNtruSk api ntruSk alloc) none
    unfold apiAddNtruSk
    split_ifs
    · exact Advance.refl h
    · exact (Advance.refl h).congr rfl rfl rfl
  | addPsk psk alloc =>
    show Advance api (apiAddPsk api psk alloc) none
    unfold apiAddPsk
    split_ifs
    · exact Advance.refl h
    · exact (Advance.refl h).congr rfl rfl rfl
  | channelCreate height alloc =>
    obtain ⟨hfits, halloc⟩ := hc
    show Advance api (apiChannelCreate T api height alloc).2 none
    unfold apiChannelCreate
    dsimp only
    split_ifs with hheight hfirst hsecond
    · exact Advance.refl h
    · exact Advance.refl h
    · rw [halloc (by simpa using hfirst)] at hsecond
      exact absurd hsecond.1 (by decide)
    · exact (Advance.channelCreate (T := T) h hfits height).congr rfl rfl rfl
  | endpointCreate height channelId alloc =>
    obtain ⟨hfits, halloc⟩ := hc
    show Advance api (apiEndpointCreate T api height channelId alloc).2 none
    unfold apiEndpointCreate
    rcases api.channelGet channelId with _ | i
    · exact Advance.refl h
    · rcases hch : api.channels[i]? with _ | ch
      · simp only [hch]
        exact Advance.refl h
      · simp only [hch]
        split_ifs with hheight hfirst hsecond
        · exact Advance.refl h
        · exact Advance.refl h
        · rw [halloc (by simpa using hfirst)] at hsecond
          exact absurd hsecond.1 (by decide)
        · exact (Advance.endpointCreate (T := T) h hch (hfits ch (List.mem_of_getElem? hch))
            height).congr rfl rfl rfl
  | writeHeader now chId epId ch1Id ep1Id psks ntruPks msgTypeId alloc bundle =>
    exact advance_writeHeader h now chId epId ch1Id ep1Id psks ntruPks msgTypeId alloc bundle
  | writePacket now args msgId payload checksum isLastPacket alloc bundle =>
    exact advance_writePacket h
      ⟨now, args, msgId, payload, checksum, isLastPacket, alloc, bundle⟩
  | read tx txs alloc =>
    have hkept := (kept_read (T := T) (N := N) api ⟨tx, txs, alloc⟩).1
    obtain ⟨hord, hprng⟩ := kept_read_ord (T := T) (N := N) api ⟨tx, txs, alloc⟩
    exact (Advance.refl h).congr hkept hord hprng

end Advance

end Mam

end Entangled
