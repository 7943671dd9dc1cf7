import Entangled.Signing.Valid
/-!
# When signing yields a valid bundle

`bundle_finalize` and then `bundle_sign`, on a bundle laid out as transfers are built. Where every
spend has an input, the result is valid as soon as the amounts and addresses are ones that
`bundle_validate` lets pass; where one has none, no signature strays exactly when the spends with
inputs come first (`bundleSign_exact`).
-/

namespace Entangled

open Ternary Trinary

section Finalize

variable {σ : Type} {K : Kerl σ} {E : Encoding} {b b' : List (Transaction (List FlexTrit))}

/-- What finalizing leaves of a transaction. -/
def frame (tx : Transaction (List FlexTrit)) : (List FlexTrit × Int64) × ℕ × ℕ :=
  (slot tx, tx.currentIndex, tx.lastIndex)

/-- A bundle whose transactions all name its hash, a packed one. -/
def Sealed (K : Kerl σ) (E : Encoding) (b : List (Transaction (List FlexTrit))) : Prop :=
  ∃ t, Trits t ∧ t.length = 243 ∧ bundleCalculateHash K E (b.map (·.essence)) = pack E t ∧
    ∀ tx ∈ b, tx.bundle = pack E t

theorem finalizeLoop_spec {rounds : ℕ} {tagTrits : List ℤ}
    (h : finalizeLoop K E rounds tagTrits b = some b') :
    b'.map frame = b.map frame ∧ Sealed K E b' := by
  induction rounds generalizing tagTrits b with
  | zero => cases h
  | succ rounds ih =>
    rw [finalizeLoop] at h
    dsimp only at h
    split_ifs at h with hsecure
    · cases h
      refine ⟨by rw [List.map_map]; rfl,
        (K.squeeze ((b.map (·.essence)).foldl (absorbEssence K E) K.init)).1,
        K.trits_extract _, K.length_extract _, ?_, ?_⟩
      · rw [List.map_map]
        exact packHash_eq (K.trits_extract _) (K.length_extract _)
      · intro tx htx
        obtain ⟨tx₀, -, rfl⟩ := List.mem_map.mp htx
        exact packHash_eq (K.trits_extract _) (K.length_extract _)
    · obtain ⟨hframe, hsealed⟩ := ih h
      refine ⟨hframe.trans ?_, hsealed⟩
      cases b <;> rfl

/-- **What finalizing gives**: the same transfers and positions, under the hash of the result. -/
theorem bundleFinalize_spec {rounds : ℕ} (h : bundleFinalize K E rounds b = some b') :
    b' ≠ [] ∧ b'.map frame = b.map frame ∧ Sealed K E b' := by
  cases b with
  | nil => cases h
  | cons head rest =>
    obtain ⟨hframe, hsealed⟩ := finalizeLoop_spec h
    refine ⟨?_, hframe, hsealed⟩
    rintro rfl
    cases hframe

theorem map_slot_of_frame (h : b'.map frame = b.map frame) : b'.map slot = b.map slot := by
  have hs := congrArg (List.map Prod.fst) h
  rwa [List.map_map, List.map_map] at hs

/-- The indexes `bundle_validate` asks for. -/
def WellIndexed (b : List (Transaction (List FlexTrit))) : Prop :=
  ∀ (i : ℕ) (tx : Transaction (List FlexTrit)), b[i]? = some tx →
    tx.currentIndex = i ∧ tx.lastIndex + 1 = b.length

theorem wellIndexed_reset (b : List (Transaction (List FlexTrit))) :
    WellIndexed (bundleResetIndexes b) := by
  intro i tx h
  rw [bundleResetIndexes, List.getElem?_mapIdx] at h
  obtain ⟨tx₀, h₀, rfl⟩ := Option.map_eq_some_iff.mp h
  have hlt := (List.getElem?_eq_some_iff.mp h₀).1
  refine ⟨rfl, ?_⟩
  rw [bundleResetIndexes, List.length_mapIdx]
  show b.length - 1 + 1 = b.length
  omega

theorem WellIndexed.of_frame (h : WellIndexed b) (hf : b'.map frame = b.map frame) :
    WellIndexed b' := by
  intro i tx hi
  have hlen := congrArg List.length hf
  rw [List.length_map, List.length_map] at hlen
  have hget := congrArg (fun l => l[i]?) hf
  simp only [List.getElem?_map, hi, Option.map_some] at hget
  obtain ⟨tx₀, h₀, he⟩ := Option.map_eq_some_iff.mp hget.symm
  have hc : tx₀.currentIndex = tx.currentIndex := congrArg (fun f => f.2.1) he
  have hl : tx₀.lastIndex = tx.lastIndex := congrArg (fun f => f.2.2) he
  rw [← hc, ← hl, hlen]
  exact h i tx₀ h₀

/-- Resetting indexes that are right changes nothing. -/
theorem WellIndexed.reset_eq (h : WellIndexed b) : bundleResetIndexes b = b := by
  apply List.ext_getElem?
  intro i
  rw [bundleResetIndexes, List.getElem?_mapIdx]
  cases hi : b[i]? with
  | none => rfl
  | some tx =>
    obtain ⟨hc, hl⟩ := h i tx hi
    have hl' : b.length - 1 = tx.lastIndex := by omega
    rw [Option.map_some, ← hc, hl']

theorem map_slot_reset (b : List (Transaction (List FlexTrit))) :
    (bundleResetIndexes b).map slot = b.map slot := by
  apply List.ext_getElem?
  intro i
  rw [bundleResetIndexes, List.getElem?_map, List.getElem?_mapIdx, List.getElem?_map,
    Option.map_map]
  rfl

end Finalize

/-! ## Amounts and addresses -/

section Payable

variable {sponge : Sponge (List FlexTrit)} {b b' : List (Transaction (List FlexTrit))}

/-- The amounts and addresses that `bundle_validate` lets pass. -/
structure Payable (sponge : Sponge (List FlexTrit)) (b : List (Transaction (List FlexTrit))) :
    Prop where
  value : ∀ tx ∈ b, Tolerated tx.value
  partialSum : ∀ k, Tolerated (Int64.ofInt (prefixSum b k))
  address : ∀ tx ∈ b, tx.value ≠ 0 → sponge.lastTrit tx.address = 0

theorem bundleValue_eq_of_slot (h : b'.map slot = b.map slot) :
    Tangle.bundleValue b' = Tangle.bundleValue b := by
  have hv := congrArg (List.map fun s => s.2.toInt) h
  rw [List.map_map, List.map_map] at hv
  exact congrArg List.sum hv

theorem Payable.of_slot (hp : Payable sponge b) (h : b'.map slot = b.map slot) :
    Payable sponge b' := by
  have hmem : ∀ tx ∈ b', ∃ tx₀ ∈ b, tx.value = tx₀.value ∧ tx.address = tx₀.address := by
    intro tx htx
    obtain ⟨tx₀, htx₀, he⟩ := List.mem_map.mp (h ▸ List.mem_map_of_mem htx)
    exact ⟨tx₀, htx₀, (congrArg Prod.snd he).symm, (congrArg Prod.fst he).symm⟩
  refine ⟨fun tx htx => ?_, fun k => ?_, fun tx htx => ?_⟩
  · obtain ⟨tx₀, htx₀, hv, -⟩ := hmem tx htx
    rw [hv]
    exact hp.value tx₀ htx₀
  · have htake : (b'.take k).map slot = (b.take k).map slot := by
      rw [List.map_take, List.map_take, h]
    rw [prefixSum, bundleValue_eq_of_slot htake]
    exact hp.partialSum k
  · obtain ⟨tx₀, htx₀, hv, ha⟩ := hmem tx htx
    rw [hv, ha]
    exact hp.address tx₀ htx₀

end Payable

/-! ## Exactness -/

section Exact

variable {σ : Type} {K : Kerl σ} {E : Encoding} {seed : List FlexTrit} {inputs : List Input}
  {b r : List (Transaction (List FlexTrit))}

theorem map_of_stripped {α : Type} (f : Transaction (List FlexTrit) → α)
    (hf : ∀ tx, f (stripped tx) = f tx) (h : r.map stripped = b.map stripped) :
    r.map f = b.map f := by
  have hs := congrArg (List.map f) h
  have hfun : f ∘ stripped = f := funext hf
  rwa [List.map_map, List.map_map, hfun] at hs

/-- **A bundle that is sealed, indexed and signed** is valid when it can be paid. -/
theorem bundleValidate_signed (hne : r ≠ []) (hi : WellIndexed r) (hs : Sealed K E r)
    (hz : Tangle.bundleValue r = 0)
    (hv : ∀ tx ∈ r, validateSignatures (kerlSponge K E) tx.bundle r = true) :
    bundleValidate (kerlSponge K E) r = .valid ↔ Payable (kerlSponge K E) r := by
  obtain ⟨t, -, -, hhash, hnames⟩ := hs
  have hess : essenceHash (kerlSponge K E) r = pack E t := hhash
  rw [bundleValidate_valid_iff]
  constructor
  · intro h
    exact ⟨h.value, h.partialSum, h.address⟩
  · intro h
    refine ⟨hne, hi, h.value, h.partialSum, by rw [hz]; exact Int.dvd_zero _, h.address,
      fun tx htx => ?_, ?_⟩
    · rw [hess, hnames tx (List.mem_of_getElem? htx)]
    · obtain ⟨tx, htx⟩ := List.exists_mem_of_ne_nil r hne
      rw [hess, ← hnames tx htx, ← validateSignatures_iff]
      exact hv tx htx

/-- **When signing does what it should.** Where every spend has an input of the seed and the
fragments of a signature start on a byte, the signed bundle is valid exactly when its amounts and
addresses pass; and signatures stay with the addresses they were made for exactly when no spend
with an input comes after one without. -/
theorem bundleSign_exact (K : Kerl σ) (E : Encoding) (beyond seed : List FlexTrit)
    (inputs : List Input) (L : Layout) (hl : SameLevels inputs L.spends)
    {b b₁ b₂ : List (Transaction (List FlexTrit))} {rounds rounds' : ℕ}
    (hb : b.map slot = L.slots) (h₁ : bundleFinalize K E rounds b = some b₁)
    (h₂ : bundleFinalize K E rounds' (bundleResetIndexes b₁) = some b₂) :
    ((∀ g ∈ L.spends, Matched inputs g.address) → Owned K E seed inputs →
      (∀ g ∈ L.spends, WholeFragments E g.security) → NoStray L.spends L.unsigned →
      Tangle.bundleValue b = 0 →
        ∃ n, ∀ steps ≥ n, ∃ result,
          bundleSign K E beyond seed inputs rounds' steps b₁ = some (.ok, result) ∧
          (bundleValidate (kerlSponge K E) result = .valid ↔ Payable (kerlSponge K E) b)) ∧
    ((∀ steps, WritesHome b₂ (signWalk K E beyond seed inputs b₂ steps)) ↔
      MatchedFirst inputs L.spends) := by
  obtain ⟨-, hframe₁, -⟩ := bundleFinalize_spec h₁
  obtain ⟨hne₂, hframe₂, hsealed⟩ := bundleFinalize_spec h₂
  have hslot₂ : b₂.map slot = b.map slot := by
    rw [map_slot_of_frame hframe₂, map_slot_reset, map_slot_of_frame hframe₁]
  have hwell : WellIndexed b₂ := (wellIndexed_reset b₁).of_frame hframe₂
  have hindexed : Indexed b₂ := fun k tx hk => (hwell k tx hk).1
  refine ⟨fun hm ho hw hs hz => ?_, writesHome_iff (hslot₂.trans hb) hindexed hl⟩
  obtain ⟨t, ht, hlen, hhash, hnames⟩ := hsealed
  obtain ⟨n, hn⟩ := signWalk_valid (hslot₂.trans hb) hindexed ht hlen hnames hm hl hw ho hs
  refine ⟨n, fun steps hsteps => ?_⟩
  obtain ⟨hok, hkept, hvalid⟩ := hn steps hsteps
  generalize hst : signWalk K E beyond seed inputs b₂ steps = st at hok hkept hvalid
  have hwell' : WellIndexed st.bundle := hwell.of_frame (map_of_stripped frame (fun _ => rfl) hkept)
  have hslot : st.bundle.map slot = b.map slot := hkept.map_slot.trans hslot₂
  have hne : st.bundle ≠ [] := by
    intro hnil
    have hlen := hkept.length
    rw [hnil] at hlen
    exact hne₂ (List.length_eq_zero_iff.mp hlen.symm)
  have hessence : st.bundle.map (·.essence) = b₂.map (·.essence) :=
    map_of_stripped _ (fun _ => rfl) hkept
  have hnames' := hkept.bundle hnames
  refine ⟨st.bundle, ?_, ?_⟩
  · rw [bundleSign, h₂, Option.map_some]
    simp only [hst, if_pos hok, hwell'.reset_eq]
  · rw [bundleValidate_signed hne hwell' ⟨t, ht, hlen, hessence ▸ hhash, hnames'⟩
      ((bundleValue_eq_of_slot hslot).trans hz) fun tx htx => by rw [hnames' tx htx]; exact hvalid]
    exact ⟨fun hp => hp.of_slot hslot.symm, fun hp => hp.of_slot hslot⟩

/-! ## Two bundles -/

theorem length_nullBlock : ∀ _ : Unit, (List.replicate 243 (0 : ℤ)).length = 243 :=
  fun _ => List.length_replicate

theorem trits_nullBlock : ∀ _ : Unit, Trits (List.replicate 243 0) := fun _ => trits_replicate 243

/-- A sponge of which only zeros come out. -/
def nullKerl : Kerl Unit where
  init := ()
  update _ _ := ()
  extract _ := (List.replicate 243 0, ())
  length_extract := length_nullBlock
  trits_extract := trits_nullBlock

theorem bundleFinalize_nullKerl (E : Encoding) {b : List (Transaction (List FlexTrit))}
    (hb : b ≠ []) :
    bundleFinalize nullKerl E 1 b = some (b.map fun tx =>
      { tx with bundle := packHash E (List.replicate 243 0) }) := by
  have hsecure : normalizedHashIsSecure (normalizeHash (List.replicate 243 0)) = true := by
    decide +kernel
  have hhash : normalizeFlexHash E (bundleCalculateHash nullKerl E (b.map (·.essence))) =
      normalizeHash (List.replicate 243 0) := by
    have hzeros : packHash E (List.replicate 243 0) = pack E (List.replicate 243 0) :=
      packHash_eq (trits_replicate 243) List.length_replicate
    show normalizeHash (hashTrits E (packHash E (List.replicate 243 0))) = _
    rw [hzeros, hashTrits_pack (trits_replicate 243) List.length_replicate]
  cases b with
  | nil => exact absurd rfl hb
  | cons head rest =>
    rw [bundleFinalize, finalizeLoop, hhash]
    dsimp only
    rw [if_pos hsecure]
    rfl

theorem addressGen_nullKerl (E : Encoding) (seed : List FlexTrit) (index : UInt64) {security : ℕ}
    (hs : 0 < security ∧ security ≤ 3) :
    iotaSignAddressGenFlexTrits nullKerl E seed index security =
      some (packHash E (List.replicate 243 0)) := by
  rw [iotaSignAddressGenFlexTrits, iotaSignAddressGenTrits, if_pos hs]
  rfl

/-- A transaction of the given transfer. -/
def transferTx (address : List FlexTrit) (value : Int64) : Transaction (List FlexTrit) where
  address := address
  value := value
  obsoleteTag := List.replicate 27 57
  timestamp := 0
  currentIndex := 0
  lastIndex := 0
  bundle := []
  trunk := []
  branch := []
  attachmentTimestamp := 0
  hash := []
  signature := []
  snapshotIndex := 0
  solid := false
  validity := .notInitialized

/-- The address of every key under `nullKerl`, three trits to a byte. -/
def nineAddress : List FlexTrit := packHash .three (List.replicate 243 0)

/-- Another address. -/
def strayAddress : List FlexTrit := List.replicate 81 65

/-- The one input. -/
def nineInput : Input := ⟨0, 1, nineAddress⟩

/-- A spend of one from the address of the input. -/
def nineSpend : Spend := ⟨nineAddress, -1, 1, by decide, by decide⟩

/-- A spend of one from the address that has no input. -/
def straySpend : Spend := ⟨strayAddress, -1, 1, by decide, by decide⟩

/-- An output of two and the spends. -/
def sampleLayout (spends : List Spend) : Layout where
  outputs := [(strayAddress, 2)]
  spends := spends
  unsigned := []
  outputs_nonneg := by decide
  unsigned_nonneg := by decide

/-- The bundle of a layout. -/
def layoutBundle (L : Layout) : List (Transaction (List FlexTrit)) :=
  L.slots.map fun s => transferTx s.1 s.2

theorem map_slot_layoutBundle (L : Layout) : (layoutBundle L).map slot = L.slots := by
  rw [layoutBundle, List.map_map]
  exact List.map_id _

theorem sameLevels_sample {spends : List Spend}
    (h : ∀ g ∈ spends, g = nineSpend ∨ g = straySpend) : SameLevels [nineInput] spends := by
  intro g hg input hi _
  rw [List.mem_singleton.mp hi]
  rcases h g hg with rfl | rfl <;> rfl

theorem strayAddress_ne : nineAddress ≠ strayAddress := by decide +kernel

theorem matched_nine : Matched [nineInput] nineSpend.address :=
  ⟨nineInput, List.mem_singleton_self _, rfl⟩

theorem not_matched_stray : ¬ Matched [nineInput] straySpend.address := by
  rintro ⟨input, hi, ha⟩
  rw [List.mem_singleton.mp hi] at ha
  exact strayAddress_ne ha

/-- The bundle of a layout after `bundle_finalize`, and again as `bundle_sign` finalizes it. -/
theorem finalize_sample (spends : List Spend) :
    ∃ b₁ b₂, bundleFinalize nullKerl .three 1 (layoutBundle (sampleLayout spends)) = some b₁ ∧
      bundleFinalize nullKerl .three 1 (bundleResetIndexes b₁) = some b₂ ∧
      b₂.map slot = (sampleLayout spends).slots ∧ Indexed b₂ := by
  refine ⟨_, _, bundleFinalize_nullKerl .three (List.cons_ne_nil _ _),
    bundleFinalize_nullKerl .three
      (fun h => List.cons_ne_nil _ _ (List.mapIdx_eq_nil_iff.mp h)), ?_, ?_⟩
  · rw [List.map_map]
    show (bundleResetIndexes _).map slot = _
    rw [map_slot_reset, List.map_map]
    exact map_slot_layoutBundle _
  · intro k tx hk
    rw [List.getElem?_map] at hk
    obtain ⟨tx₀, h₀, rfl⟩ := Option.map_eq_some_iff.mp hk
    exact (wellIndexed_reset _ k tx₀ h₀).1

/-- The theorem on two spends that have their input. -/
theorem bundleSign_exact_sample :
    ∃ b₁, bundleFinalize nullKerl .three 1 (layoutBundle (sampleLayout [nineSpend, nineSpend])) =
        some b₁ ∧
      ∃ n, ∀ steps ≥ n, ∃ result,
        bundleSign nullKerl .three [] [] [nineInput] 1 steps b₁ = some (.ok, result) ∧
        (bundleValidate (kerlSponge nullKerl .three) result = .valid ↔
          Payable (kerlSponge nullKerl .three)
            (layoutBundle (sampleLayout [nineSpend, nineSpend]))) := by
  obtain ⟨b₁, b₂, h₁, h₂, -, -⟩ := finalize_sample [nineSpend, nineSpend]
  refine ⟨b₁, h₁, (bundleSign_exact nullKerl .three [] [] [nineInput] _
    (sameLevels_sample fun g hg => .inl (by rcases List.mem_pair.mp hg with h | h <;> exact h))
    (map_slot_layoutBundle _) h₁ h₂).1 ?_ ?_ ?_ ?_ ?_⟩
  · intro g hg
    rcases List.mem_pair.mp hg with rfl | rfl <;> exact matched_nine
  · intro input hi
    rw [List.mem_singleton.mp hi]
    exact addressGen_nullKerl .three [] 0 (by decide)
  · exact fun g _ => .inl rfl
  · intro g _ s hs
    cases hs
  · decide

/-- **A stray signature.** The first spend has no input, and the signature of the second is
written into it. -/
theorem bundleSign_strays :
    ∃ b₁ b₂, bundleFinalize nullKerl .three 1
        (layoutBundle (sampleLayout [straySpend, nineSpend])) = some b₁ ∧
      bundleFinalize nullKerl .three 1 (bundleResetIndexes b₁) = some b₂ ∧
      ¬ ∀ steps, WritesHome b₂ (signWalk nullKerl .three [] [] [nineInput] b₂ steps) := by
  obtain ⟨b₁, b₂, h₁, h₂, hslots, hindexed⟩ := finalize_sample [straySpend, nineSpend]
  refine ⟨b₁, b₂, h₁, h₂, fun hhome => ?_⟩
  have hfirst := (writesHome_iff hslots hindexed (sameLevels_sample (by
    intro g hg
    rcases List.mem_cons.mp hg with rfl | hg
    · exact .inr rfl
    · exact .inl (List.mem_singleton.mp hg)))).mp hhome
  have hpair := (List.pairwise_cons.mp hfirst).1 nineSpend (List.mem_singleton_self _)
  exact not_matched_stray (hpair matched_nine)

end Exact

end Entangled
