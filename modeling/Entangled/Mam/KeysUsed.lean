import Entangled.Mam.Keys
/-!
# The keys of a run

The tree that signs in a call is the one that goes on (`mss_call`), so the signatures of a run are
made with the keys their trees have counted, and no two with one key (`keysUsed_nodup`).
-/

namespace Entangled

namespace Mam

open Spongos

variable {T : Troika} {N : Ntru} {M : MerkleMode}

section Trees

variable {api api' : Api M} {r : MssRef} {m : Mss M} {i : ℕ} {ch : Channel M}

/-! ## The trees -/

theorem mss_congr (h : api'.channels = api.channels) (r : MssRef) : api'.mss r = api.mss r := by
  cases r <;> rw [Api.mss, Api.mss, h]

theorem mss_setMss_eq {r' : MssRef} {old new : Mss M} (hm : api.mss r = some m)
    (hold : api.mss r' = some old) :
    (api.setMss new r').mss r = some (if some r' = some r then new else m) := by
  by_cases hr : r' = r
  · subst hr
    rw [if_pos rfl, Api.mss_setMss hold]
  · rw [if_neg fun h => hr (Option.some.inj h), Api.mss_setMss_of_ne hr, hm]

theorem mss_setMss_same {r' : MssRef} {old : Mss M} (hm : api.mss r = some m)
    (hold : api.mss r' = some old) : (api.setMss old r').mss r = some m := by
  rw [mss_setMss_eq hm hold]
  split_ifs with hr
  · obtain rfl := Option.some.inj hr
    rw [← hold, hm]
  · rfl

theorem mss_msgOrd (g : List Trit → List Trit) (r : MssRef) :
    Api.mss { api with
      channels := api.channels.modify i fun ch => { ch with msgOrd := g ch.msgOrd } } r =
        api.mss r := by
  cases r with
  | channel k =>
    by_cases hik : i = k <;> cases hk : api.channels[k]? <;> simp [Api.mss, hik, hk]
  | endpoint k l =>
    by_cases hik : i = k <;> cases hk : api.channels[k]? <;> simp [Api.mss, hik, hk]

theorem mss_writePacket (T : Troika) (c : WriteCall) (hm : api.mss r = some m) :
    (api.write T c).2.1.mss r =
      some (if signer api c.call = some r then mssNext T m else m) := by
  obtain ⟨-, ⟨r', old, hsigner, hold, -, hchannels⟩ |
    ⟨hsigner, hchannels | ⟨r', old, hold, hchannels⟩⟩⟩ := channels_writePacket T api c
  · rw [mss_congr hchannels, mss_setMss_eq hm hold, hsigner]
    split_ifs with hr
    · obtain rfl := Option.some.inj hr
      rw [Option.some.inj (hold.symm.trans hm)]
    · rfl
  · rw [mss_congr hchannels, hm, hsigner, if_neg (Option.some_ne_none r).symm]
  · rw [mss_congr hchannels, mss_setMss_same hm hold, hsigner,
      if_neg (Option.some_ne_none r).symm]

theorem mss_writeHeaderAt (hch : api.channels[i]? = some ch) (hm : api.mss r = some m) (now : ℕ)
    (ep : Option (Endpoint M)) (ch1 : Option (Channel M)) (ep1 : Option (Endpoint M)) (ref : MssRef)
    (psks : List Psk) (ntruPks : List (List Trit)) (msgTypeId : ℤ) (alloc : ℕ → Bool)
    (bundle : List Transaction) :
    (apiBundleWriteHeaderAt T N api now i ch ep ch1 ep1 ref psks ntruPks msgTypeId alloc
        bundle).2.1.mss r =
      some (if (if alloc 0 = true ∧ (ch1.isSome ∨ ep1.isSome) ∧ mssRemainingSks ch.mss ≠ 0
        then some (MssRef.channel i) else none) = some r then mssNext T m else m) := by
  let count : List Trit → List Trit := fun ord => Trit.ofInts (addAssign (Trit.toInts ord) 1)
  let counted : Api M := { api with
    channels := api.channels.modify i fun ch => { ch with msgOrd := count ch.msgOrd } }
  have hcounted : counted.mss r = some m := (mss_msgOrd count r).trans hm
  have hat : counted.mss (.channel i) = some ch.mss := by
    refine (mss_msgOrd count (.channel i)).trans ?_
    rw [Api.mss, hch]
    rfl
  have hwritten : (counted.setMss (msgWriteHeader T N api.prng ch ep ch1 ep1 (msgIdOf T ch)
      msgTypeId psks ntruPks).2.1 (.channel i)).mss r =
      some (if (if (ch1.isSome ∨ ep1.isSome) ∧ mssRemainingSks ch.mss ≠ 0
        then some (MssRef.channel i) else none) = some r then mssNext T m else m) := by
    rw [mss_msgWriteHeader]
    by_cases hsigns : (ch1.isSome ∨ ep1.isSome) ∧ mssRemainingSks ch.mss ≠ 0
    · rw [if_pos hsigns, if_pos hsigns, mss_setMss_eq hcounted hat]
      split_ifs with hr
      · obtain rfl := Option.some.inj hr
        rw [Option.some.inj (hat.symm.trans hcounted)]
      · rfl
    · rw [if_neg hsigns, if_neg hsigns, mss_setMss_same hcounted hat,
        if_neg (Option.some_ne_none r).symm]
  unfold apiBundleWriteHeaderAt
  dsimp only
  cases halloc : alloc 0 with
  | false =>
    have hnot : ¬ (false = true ∧ (ch1.isSome ∨ ep1.isSome) ∧ mssRemainingSks ch.mss ≠ 0) :=
      fun hall => Bool.false_ne_true hall.1
    rw [if_pos rfl, if_neg hnot, if_neg (Option.some_ne_none r).symm]
    exact hcounted
  | true =>
    simp only [Bool.true_eq_false, if_false, true_and]
    generalize msgWriteHeader T N api.prng ch ep ch1 ep1 (msgIdOf T ch) msgTypeId psks ntruPks = q
      at hwritten ⊢
    obtain ⟨e | u, m', t⟩ := q
    · exact hwritten
    · dsimp only
      by_cases hlater : alloc 1 = false
      · rw [if_pos hlater]
        exact (mss_congr rfl r).trans hwritten
      · rw [if_neg hlater]
        exact (mss_congr rfl r).trans hwritten

theorem mss_writeHeader (T : Troika) (N : Ntru) (hm : api.mss r = some m) (now : ℕ)
    (chId : List Trit) (epId ch1Id ep1Id : Option (List Trit)) (psks : List Psk)
    (ntruPks : List (List Trit)) (msgTypeId : ℤ) (alloc : ℕ → Bool) (bundle : List Transaction) :
    (apiBundleWriteHeader T N api now chId epId ch1Id ep1Id psks ntruPks msgTypeId alloc
        bundle).2.1.mss r =
      some (if signer api (.writeHeader now chId epId ch1Id ep1Id psks ntruPks msgTypeId alloc
        bundle) = some r then mssNext T m else m) := by
  generalize hs : signer api (.writeHeader now chId epId ch1Id ep1Id psks ntruPks msgTypeId alloc
    bundle) = s
  have hnone : none = s → api.mss r = some (if s = some r then mssNext T m else m) := by
    rintro rfl
    rw [if_neg (Option.some_ne_none r).symm, hm]
  unfold signer at hs
  unfold apiBundleWriteHeader
  revert hs
  rcases bundle with _ | ⟨tx, bundle⟩
  · rw [if_neg (by simp)]
    dsimp only
    rcases headerArgs api chId epId ch1Id ep1Id with e | ⟨i, j, k, l⟩
    · exact hnone
    · dsimp only
      rcases hch : api.channels[i]? with _ | ch
      · exact hnone
      · rintro rfl
        exact mss_writeHeaderAt hch hm _ _ _ _ _ _ _ _ _ _
  · rw [if_pos (by simp)]
    dsimp only
    rcases headerArgs api chId epId ch1Id ep1Id with e | ⟨i, j, k, l⟩ <;> exact hnone

theorem mss_channelCreate (T : Troika) (hm : api.mss r = some m) (height : ℕ) (alloc : ℕ → Bool) :
    (apiChannelCreate T api height alloc).2.mss r = some m := by
  have hadded : ∀ {a : Api M} (new : Channel M), a.channels = api.channels ++ [new] →
      a.mss r = some m := by
    intro a new ha
    cases r with
    | channel i =>
      obtain ⟨ch, hch, rfl⟩ := Option.map_eq_some_iff.mp hm
      rw [Api.mss, ha, List.getElem?_append_left (List.getElem?_eq_some_iff.mp hch).1, hch]
      rfl
    | endpoint i j =>
      obtain ⟨ep, hep, rfl⟩ := Option.map_eq_some_iff.mp hm
      obtain ⟨ch, hch, hep⟩ := Option.bind_eq_some_iff.mp hep
      rw [Api.mss, ha, List.getElem?_append_left (List.getElem?_eq_some_iff.mp hch).1, hch,
        Option.bind_some, hep]
      rfl
  unfold apiChannelCreate
  dsimp only
  split_ifs
  · exact hm
  · exact hm
  · exact hadded _ rfl
  · exact hadded _ rfl

theorem mss_endpointCreate (T : Troika) (hm : api.mss r = some m) (height : ℕ)
    (channelId : List Trit) (alloc : ℕ → Bool) :
    (apiEndpointCreate T api height channelId alloc).2.mss r = some m := by
  have hadded : ∀ (i : ℕ) (new : Endpoint M), Api.mss { api with
      channels := api.channels.modify i fun ch =>
        { ch with endpoints := ch.endpoints ++ [new] } } r = some m := by
    intro i new
    cases r with
    | channel k =>
      obtain ⟨ch, hch, rfl⟩ := Option.map_eq_some_iff.mp hm
      by_cases hik : i = k <;> simp [Api.mss, hch, hik]
    | endpoint k l =>
      obtain ⟨ep, hfound, rfl⟩ := Option.map_eq_some_iff.mp hm
      obtain ⟨ch, hch, hep⟩ := Option.bind_eq_some_iff.mp hfound
      by_cases hik : i = k
      · subst hik
        simp [Api.mss, hch, List.getElem?_append_left (List.getElem?_eq_some_iff.mp hep).1, hep]
      · simp [Api.mss, hch, hik, hep]
  have hcounted : ∀ {a : Api M} (i : ℕ), a.mss r = some m → Api.mss { a with
      channels := a.channels.modify i fun ch =>
        { ch with endpointOrd := ch.endpointOrd + 1 } } r = some m := by
    intro a i ha
    cases r with
    | channel k =>
      obtain ⟨ch, hch, rfl⟩ := Option.map_eq_some_iff.mp ha
      by_cases hik : i = k <;> simp [Api.mss, hch, hik]
    | endpoint k l =>
      obtain ⟨ep, hep, rfl⟩ := Option.map_eq_some_iff.mp ha
      obtain ⟨ch, hch, hep⟩ := Option.bind_eq_some_iff.mp hep
      by_cases hik : i = k <;> simp [Api.mss, hch, hik, hep]
  unfold apiEndpointCreate
  rcases api.channelGet channelId with _ | i
  · exact hm
  · dsimp only
    rcases api.channels[i]? with _ | ch
    · exact hm
    · dsimp only
      split_ifs
      · exact hm
      · exact hm
      · exact hadded i _
      · exact (mss_congr rfl r).trans (hcounted i (hadded i _))

/-- **A tree goes on when it signs**, and only then. -/
theorem mss_call (T : Troika) (N : Ntru) (c : Call) (hm : api.mss r = some m) :
    (api.call T N c).mss r = some (if signer api c = some r then mssNext T m else m) := by
  cases c with
  | addTrustedChannelPk pk alloc => exact hm
  | addTrustedEndpointPk pk alloc => exact hm
  | addNtruSk ntruSk alloc =>
    show (apiAddNtruSk api ntruSk alloc).mss r = some m
    unfold apiAddNtruSk
    split_ifs <;> exact hm
  | addPsk psk alloc =>
    show (apiAddPsk api psk alloc).mss r = some m
    unfold apiAddPsk
    split_ifs <;> exact hm
  | channelCreate height alloc => exact mss_channelCreate T hm height alloc
  | endpointCreate height channelId alloc => exact mss_endpointCreate T hm height channelId alloc
  | writeHeader now chId epId ch1Id ep1Id psks ntruPks msgTypeId alloc bundle =>
    exact mss_writeHeader T N hm now chId epId ch1Id ep1Id psks ntruPks msgTypeId alloc bundle
  | writePacket now args msgId payload checksum isLastPacket alloc bundle =>
    exact mss_writePacket T
      ⟨now, args, msgId, payload, checksum, isLastPacket, alloc, bundle⟩ hm
  | read tx txs alloc =>
    exact (mss_congr (kept_read (T := T) (N := N) api ⟨tx, txs, alloc⟩).1 r).trans hm

end Trees

/-! ## Runs -/

section Runs

variable {api : Api M} {r : MssRef} {m : Mss M}

theorem exists_mss_of_signer {c : Call} (hc : signer api c = some r) :
    ∃ m, api.mss r = some m ∧ mssRemainingSks m ≠ 0 := by
  have hnone : (none : Option MssRef) ≠ some r := (Option.some_ne_none r).symm
  revert hc
  cases c with
  | writeHeader now chId epId ch1Id ep1Id psks ntruPks msgTypeId alloc bundle =>
    unfold signer
    dsimp only
    rcases headerArgs api chId epId ch1Id ep1Id with e | ⟨i, j, k, l⟩
    · exact fun h => absurd h hnone
    · rcases bundle with _ | ⟨tx, bundle⟩
      · dsimp only
        rcases hch : api.channels[i]? with _ | ch
        · exact fun h => absurd h hnone
        · dsimp only
          intro h
          split_ifs at h with hall
          obtain rfl := Option.some.inj h
          exact ⟨ch.mss, by rw [Api.mss, hch]; rfl, hall.2.2⟩
      · exact fun h => absurd h hnone
  | writePacket now args msgId payload checksum isLastPacket alloc bundle =>
    unfold signer
    dsimp only
    rcases hfound : api.findWrite msgId with _ | ⟨ctx, m⟩
    · exact fun h => absurd h hnone
    · dsimp only
      intro h
      split_ifs at h with hall
      obtain rfl := Option.some.inj h
      exact ⟨m, (findWrite_eq hfound).2, hall.2.2.2⟩
  | addTrustedChannelPk => exact fun h => absurd h hnone
  | addTrustedEndpointPk => exact fun h => absurd h hnone
  | addNtruSk => exact fun h => absurd h hnone
  | addPsk => exact fun h => absurd h hnone
  | channelCreate => exact fun h => absurd h hnone
  | endpointCreate => exact fun h => absurd h hnone
  | read => exact fun h => absurd h hnone

theorem flatten_channel (size name number : List Trit) :
    ([size, name, [], []] ++ [number]).flatten = size ++ name ++ number := by simp

theorem flatten_endpoint (size name size' name' number : List Trit) :
    ([size, name, size', name'] ++ [number]).flatten =
      size ++ name ++ (size' ++ name') ++ number := by simp

theorem keyInput_channel {size name : List Trit} (h : m.nonces = [size, name, [], []]) :
    keyInput m = size ++ name ++ put18 m.skn := by
  unfold keyInput
  rw [h]
  exact flatten_channel _ _ _

theorem keyInput_endpoint {size name size' name' : List Trit}
    (h : m.nonces = [size, name, size', name']) :
    keyInput m = size ++ name ++ (size' ++ name') ++ put18 m.skn := by
  unfold keyInput
  rw [h]
  exact flatten_endpoint _ _ _ _ _

/-- **What goes into the generator** tells the owner of a tree and the number of its key. -/
theorem keyInput_eq (h : api.Numbered) (hm : api.mss r = some m) {o : Owner}
    (ho : api.owner r = some o) : keyInput m = inputOf (o, m.skn) := by
  cases r with
  | channel i =>
    obtain ⟨ch, hch, rfl⟩ := Option.map_eq_some_iff.mp hm
    rw [Api.owner, hch] at ho
    obtain rfl := Option.some.inj ho
    exact keyInput_channel (h.channels ch (List.mem_of_getElem? hch)).nonces
  | endpoint i j =>
    obtain ⟨ep, hfound, rfl⟩ := Option.map_eq_some_iff.mp hm
    obtain ⟨ch, hch, hep⟩ := Option.bind_eq_some_iff.mp hfound
    rw [Api.owner, hch, Option.bind_some, hep] at ho
    obtain rfl := Option.some.inj ho
    have hnonces := ((h.channels ch (List.mem_of_getElem? hch)).endpoints ep
      (List.mem_of_getElem? hep)).2
    exact keyInput_endpoint hnonces

theorem fits_of_owner (h : api.Numbered) (hsound : api.Sound T) (hm : api.mss r = some m)
    (hleft : mssRemainingSks m ≠ 0) {o : Owner} (ho : api.owner r = some o) :
    Fits (o, m.skn) := by
  have hheight : m.height ≤ 20 := (hsound.mss hm).height_le
  have hpow : 2 ^ m.height ≤ 2 ^ 20 := Nat.pow_le_pow_right (by decide) hheight
  rw [mssRemainingSks_eq] at hleft
  have hskn : m.skn < 2 ^ 20 := by omega
  cases r with
  | channel i =>
    obtain ⟨ch, hch, rfl⟩ := Option.map_eq_some_iff.mp hm
    rw [Api.owner, hch] at ho
    obtain rfl := Option.some.inj ho
    exact ⟨(h.channels ch (List.mem_of_getElem? hch)).length_name,
      fun name hname => absurd hname (Option.not_mem_none name), hskn⟩
  | endpoint i j =>
    obtain ⟨ep, hfound, rfl⟩ := Option.map_eq_some_iff.mp hm
    obtain ⟨ch, hch, hep⟩ := Option.bind_eq_some_iff.mp hfound
    rw [Api.owner, hch, Option.bind_some, hep] at ho
    obtain rfl := Option.some.inj ho
    have hnum := h.channels ch (List.mem_of_getElem? hch)
    refine ⟨hnum.length_name, fun name hname => ?_, hskn⟩
    obtain rfl := Option.some.inj hname
    obtain ⟨k, -, -, hk⟩ := hnum.names ep (List.mem_of_getElem? hep)
    rw [hk]
    exact length_put18 k

/-- What is kept along a run. -/
structure Kept (T : Troika) (N : Ntru) (api : Api M) : Prop where
  numbered : api.Numbered
  reached : Reached T N (fun _ _ => True) api

theorem kept_init (T : Troika) (N : Ntru) (prng : List Trit) : Kept T N (Api.init prng : Api M) :=
  ⟨⟨List.nodup_nil, fun _ hch => absurd hch List.not_mem_nil, le_rfl,
    fun _ hch => absurd hch List.not_mem_nil⟩, .init prng⟩

/-- The numbers of the keys are counted by their trees. -/
theorem tally_keys (T : Troika) (N : Ntru) :
    Runs.Tally (Api.call T N) (Kept T N : Api M → Prop) Counted Api.nextKey keyTaken where
  keeps _ _ hkept hc := ⟨(advance_call hkept.numbered hc).numbered, hkept.reached.call trivial⟩
  grows _ _ o hkept hc := (advance_call (T := T) (N := N) hkept.numbered hc).grows o
  takes _ _ o n hkept hc := (advance_call (T := T) (N := N) hkept.numbered hc).takes o n

/-- The key of a call, and what goes into the generator for it. -/
theorem keyTaken_cases (hkept : Kept T N api) (c : Call) :
    (signer api c).bind api.mss = none ∧ keyTaken api c = none ∨
      ∃ m p, (signer api c).bind api.mss = some m ∧ keyTaken api c = some p ∧ Fits p ∧
        keyInput m = inputOf p := by
  rcases hsigner : signer api c with _ | r
  · exact .inl ⟨rfl, keyTaken_of_none hsigner⟩
  · obtain ⟨m, hm, hleft⟩ := exists_mss_of_signer hsigner
    obtain ⟨o, ho⟩ := exists_owner hm
    refine .inr ⟨m, (o, m.skn), hm, ?_,
      fits_of_owner hkept.numbered hkept.reached.sound hm hleft ho,
      keyInput_eq hkept.numbered hm ho⟩
    rw [keyTaken_of_signer hsigner hm, ho]
    rfl

theorem keysUsed_eq {calls : List Call} (hkept : Kept T N api)
    (hmeets : Runs.Meets (Api.call T N) Counted api calls) :
    keysUsed T N api calls =
      (Runs.taken (Api.call T N) keyTaken api calls).map inputOf := by
  induction calls generalizing api with
  | nil => rfl
  | cons c calls ih =>
    obtain ⟨hc, hrest⟩ := hmeets
    rw [keysUsed, Runs.taken, List.map_append, ih ((tally_keys T N).keeps api c hkept hc) hrest]
    rcases keyTaken_cases hkept c with ⟨hnone, htaken⟩ | ⟨m, p, hsome, htaken, -, hinput⟩
    · rw [hnone, htaken]
      rfl
    · rw [hsome, htaken]
      show keyInput m :: _ = inputOf p :: _
      rw [hinput]
      rfl

theorem mssPrivateKey_eq (T : Troika) (m : Mss M) :
    mssPrivateKey T m m.skn = prngGen5 T m.prng 1 [keyInput m] wotsPrivateKeySize := by
  have hflat : ∀ (a b : List Trit) (l : List (List Trit)),
      (a :: b :: l).flatten = (a :: b :: [l.flatten]).flatten := by
    intro a b l
    simp
  unfold mssPrivateKey prngGen5 keyInput
  dsimp only
  rw [hflat]

end Runs

/-- A channel is made and announces itself twice. -/
def announcements (T : Troika) (prng : List Trit) : List Call :=
  let chId := (channelCreate T prng 1 (put18 0) : Channel classic).mss.root
  let announce := Call.writeHeader 0 chId none (some chId) none [] [] 0 (fun _ => true) []
  [.channelCreate 1 fun _ => true, announce, announce]

end Mam

end Entangled
