import Entangled.Signing.Walk
/-!
# Signed bundles are valid

What `bundle_finalize` and `bundle_sign` leave is put before `bundle_validate`. In step, each
spend carries the fragments of its signature over the hash of the bundle, and these lead back
to its address (`signatureGen_spec`), provided that a fragment is a whole number of bytes: the
fragments are copied from multiples of `FLEX_TRIT_SIZE_6561`, which is rounded up where a byte
holds four or five trits.
-/

namespace Entangled

open Ternary Trinary

/-! ## Packed hashes and fragments -/

section Packed

variable {E : Encoding} {t s : List ℤ}

theorem packHash_eq (ht : Trits t) (hl : t.length = 243) : packHash E t = pack E t := by
  have h := flexTritsFromTrits_pack (E := E) (List.replicate (E.numFlexTritsForTrits 243) 0) t 243
    ht List.take_length (by omega) (by omega) (by rw [hl, List.length_replicate])
  rw [hl] at h
  rw [packHash, h, blit_full (by rw [length_pack, List.length_replicate, hl])]

theorem hashTrits_pack (ht : Trits t) (hl : t.length = 243) : hashTrits E (pack E t) = t := by
  have h := flexTritsToTrits_pack (E := E) (List.replicate 243 0) 243 ht List.prefix_rfl
    (by omega) (fun _ => by rw [hl]; decide) (by omega) (by rw [List.length_replicate]; omega)
  rw [hl] at h
  rw [hashTrits, h, blit_full (by rw [List.length_replicate, hl])]

theorem fragmentTrits_pack (ht : Trits t) (hl : t.length = 6561) :
    fragmentTrits E (pack E t) = t := by
  have h := flexTritsToTrits_pack (E := E) (List.replicate 6561 0) 6561 ht List.prefix_rfl
    (by omega) (fun _ => by rw [hl]; decide) (by omega) (by rw [List.length_replicate]; omega)
  rw [hl] at h
  rw [fragmentTrits, h, blit_full (by rw [List.length_replicate, hl])]

/-- A signature of `n` fragments starts each of them on a byte. -/
def WholeFragments (E : Encoding) (n : ℕ) : Prop := 6561 % E.numTritsPerFlexTrit = 0 ∨ n = 1

/-- **The bytes copied for a fragment** are that fragment, packed. -/
theorem fragmentBytes_pack {beyond : List FlexTrit} {n i : ℕ} (hl : s.length = n * 6561)
    (hw : WholeFragments E n) (hi : i < n) :
    fragmentBytes E beyond (pack E s) i = pack E (block 6561 s i) := by
  rcases hw with hw | rfl
  · have hF : E.numFlexTritsForTrits 6561 = 6561 / E.numTritsPerFlexTrit := by
      rw [numFlexTritsForTrits_eq, Packing.cells_eq, packing_width, if_pos hw, Nat.add_zero]
    have hq : E.numTritsPerFlexTrit * E.numFlexTritsForTrits 6561 = 6561 := by
      rw [hF]
      exact Nat.mul_div_cancel' (Nat.dvd_of_mod_eq_zero hw)
    have hstart : E.numTritsPerFlexTrit * (i * E.numFlexTritsForTrits 6561) = 6561 * i := by
      rw [Nat.mul_left_comm, hq, Nat.mul_comm]
    have hcells : i * E.numFlexTritsForTrits 6561 + E.numFlexTritsForTrits 6561 ≤
        (pack E s).length := by
      rw [length_pack, numFlexTritsForTrits_eq E s.length]
      refine (packing E).le_cells ?_
      rw [packing_width, Nat.mul_add, hstart, hq]
      omega
    have hcut := (packing E).pack_take_drop_aligned (l := s) (n := 6561)
      (s := i * E.numFlexTritsForTrits 6561) (by rw [packing_width, hstart]; omega)
    rw [packing_width, if_pos hw, List.append_nil, ← hF, hstart] at hcut
    rw [fragmentBytes, List.drop_append_of_le_length (by omega), List.take_append_of_le_length
      (by rw [List.length_drop]; omega)]
    exact hcut.symm
  · obtain rfl : i = 0 := by omega
    have hlen : (pack E s).length = E.numFlexTritsForTrits 6561 := by
      rw [length_pack, hl, Nat.one_mul]
    rw [fragmentBytes, Nat.zero_mul, List.drop_zero, ← hlen, List.take_left, block, Nat.mul_zero,
      List.drop_zero, List.take_of_length_le (by omega)]

end Packed

/-! ## A group and its signature -/

section Group

variable {σ : Type} {K : Kerl σ} {E : Encoding} {beyond seed hash : List FlexTrit}

/-- **The fragments of a signature lead to the address**, as `bundle_validate` computes it. -/
theorem signatureAddress_fragments {t : List ℤ} (ht : Trits t) (hl : t.length = 243)
    {index : UInt64} {security : ℕ} (hs : 0 < security ∧ security ≤ 3)
    (hw : WholeFragments E security) {signature address : List FlexTrit}
    (hsig : iotaSignSignatureGenFlexTrits K E seed index security (pack E t) = some signature)
    (haddr : iotaSignAddressGenFlexTrits K E seed index security = some address) :
    (kerlSponge K E).signatureAddress (pack E t)
      ((List.range security).map (fragmentBytes E beyond signature)) = address := by
  obtain ⟨s, hgen, hlen, hst, hspec⟩ := signatureGen_spec K (hashTrits E seed) index hs ht
  have hpacked : signature = pack E s := by
    have hflex := flexTritsFromTrits_pack (E := E)
      (List.replicate (E.numFlexTritsForTrits (security * 6561)) 0) s (security * 6561) hst
      List.take_length (by omega) (by omega) (by rw [hlen, List.length_replicate])
    rw [hlen] at hflex
    rw [iotaSignSignatureGenFlexTrits, hashTrits_pack ht hl, hgen, Option.map_some, hflex,
      blit_full (by rw [length_pack, List.length_replicate, hlen]), Option.some.injEq] at hsig
    exact hsig.symm
  have hfragments : ((List.range security).map (fragmentBytes E beyond signature)).map
      (fragmentTrits E) = (List.range security).map (block 6561 s) := by
    rw [List.map_map]
    refine List.map_congr_left fun i hi => ?_
    have hlt := List.mem_range.mp hi
    have hblock : (block 6561 s i).length = 6561 := length_block (by omega)
    have htrits : Trits (block 6561 s i) := (hst.drop _).take _
    rw [Function.comp_apply, hpacked, fragmentBytes_pack hlen hw hlt,
      fragmentTrits_pack htrits hblock]
  rw [iotaSignAddressGenFlexTrits, hspec (List.replicate 243 0) List.length_replicate,
    Option.map_some, Option.some.injEq] at haddr
  rw [← haddr]
  show packHash E _ = packHash E _
  rw [normalizeFlexHashToTrits, hashTrits_pack ht hl, hfragments]

end Group

/-! ## Walking over a signed bundle -/

section Check

variable {sponge : Sponge (List FlexTrit)} {hash : List FlexTrit}
  {tx : Transaction (List FlexTrit)} {tail rest b : List (Transaction (List FlexTrit))}

theorem validateSignatures_skip (h : ∀ t ∈ tail, (0 : Int64) ≤ t.value) :
    validateSignatures sponge hash (tail ++ rest) = validateSignatures sponge hash rest := by
  induction tail with
  | nil => rfl
  | cons t tail ih =>
    obtain ⟨ht, htail⟩ := List.forall_mem_cons.mp h
    rw [List.cons_append, validateSignatures, if_pos ht, ih htail]

/-- **One spend**: its fragments are its own when what follows is not one more. -/
theorem validateSignatures_group (hneg : tx.value < 0)
    (htail : ∀ t ∈ tail, t.address = tx.address ∧ t.value = 0)
    (hstop : ∀ t, rest.head? = some t → ¬ (t.address = tx.address ∧ t.value = 0))
    (hsig : sponge.signatureAddress hash ((tx :: tail).map (·.signature)) = tx.address) :
    validateSignatures sponge hash (tx :: (tail ++ rest)) =
      validateSignatures sponge hash rest := by
  have hnone : rest.takeWhile (fun t => decide (t.address = tx.address ∧ t.value = 0)) = [] := by
    cases rest with
    | nil => rfl
    | cons t rest =>
      rw [List.takeWhile_cons, if_neg]
      rw [decide_eq_true_eq]
      exact hstop t rfl
  have hwhile : (tail ++ rest).takeWhile
      (fun t => decide (t.address = tx.address ∧ t.value = 0)) = tail := by
    rw [List.takeWhile_append_of_pos fun t ht => decide_eq_true (htail t ht), hnone,
      List.append_nil]
  rw [validateSignatures, if_neg (Int64.not_le.mpr hneg), hwhile]
  simp only [hsig, ne_eq, not_true_eq_false, if_false]
  exact validateSignatures_skip fun t ht => by rw [(htail t ht).2]; exact Int64.le_refl 0

theorem validateSignatures_spend {g : Spend} (hslots : b.map slot = g.slots)
    (hstop : ∀ t, rest.head? = some t → ¬ ((slot t).1 = g.address ∧ (slot t).2 = 0))
    (hsig : sponge.signatureAddress hash (b.map (·.signature)) = g.address) :
    validateSignatures sponge hash (b ++ rest) = validateSignatures sponge hash rest := by
  cases b with
  | nil => cases hslots
  | cons tx tail =>
    rw [List.map_cons, Spend.slots, List.cons.injEq] at hslots
    obtain ⟨hhead, htail⟩ := hslots
    have haddr : tx.address = g.address := congrArg Prod.fst hhead
    have hval : tx.value = g.value := congrArg Prod.snd hhead
    refine validateSignatures_group (hval ▸ g.negative) (fun t ht => ?_) ?_ (haddr ▸ hsig)
    · have hslot := List.eq_of_mem_replicate (htail ▸ List.mem_map_of_mem ht)
      exact ⟨(congrArg Prod.fst hslot).trans haddr.symm, congrArg Prod.snd hslot⟩
    · rwa [haddr]

end Check

/-! ## The run over the spends -/

section Run

variable {σ : Type} {K : Kerl σ} {E : Encoding} {beyond seed : List FlexTrit}
  {inputs : List Input} {st : SignState} {b : List (Transaction (List FlexTrit))}
  {us : List (List FlexTrit × Int64)} {todo : List Spend} {t : List ℤ}

theorem Kept.map_slot (h : Kept b st) : st.bundle.map slot = b.map slot := by
  have hs := congrArg (List.map slot) h
  rwa [List.map_map, List.map_map] at hs

theorem Kept.bundle (h : Kept b st) {hash : List FlexTrit} (hb : ∀ tx ∈ b, tx.bundle = hash) :
    ∀ tx ∈ st.bundle, tx.bundle = hash := by
  intro tx htx
  have hmem : stripped tx ∈ b.map stripped := h ▸ List.mem_map_of_mem htx
  obtain ⟨tx₀, htx₀, he⟩ := List.mem_map.mp hmem
  exact (congrArg Transaction.bundle he).symm.trans (hb tx₀ htx₀)

theorem take_withFragments (k n : ℕ) (f : ℕ → List FlexTrit)
    (l : List (Transaction (List FlexTrit))) : (withFragments k n f l).take k = l.take k := by
  apply List.ext_getElem?
  intro i
  rcases Nat.lt_or_ge i k with hi | hi
  · rw [List.getElem?_take_of_lt hi, List.getElem?_take_of_lt hi, withFragments,
      List.getElem?_mapIdx]
    cases l[i]? with
    | none => rfl
    | some tx => rw [Option.map_some, if_neg (by omega)]
  · rw [List.getElem?_take_eq_none hi, List.getElem?_take_eq_none hi]

theorem signatures_withFragments {k n : ℕ} {f : ℕ → List FlexTrit}
    {l : List (Transaction (List FlexTrit))} (h : k + n ≤ l.length) :
    (((withFragments k n f l).drop k).take n).map (·.signature) = (List.range n).map f := by
  apply List.ext_getElem?
  intro i
  rcases Nat.lt_or_ge i n with hi | hi
  · rw [List.getElem?_map, List.getElem?_take_of_lt hi, List.getElem?_drop, withFragments,
      List.getElem?_mapIdx, List.getElem?_eq_getElem (by omega), List.getElem?_map,
      List.getElem?_range hi, Option.map_some, Option.map_some, if_pos (by omega),
      Nat.add_sub_cancel_left, Option.map_some]
  · rw [List.getElem?_eq_none, List.getElem?_eq_none]
    · rwa [List.length_map, List.length_range]
    · rw [List.length_map, List.length_take]
      omega

/-- Every input has the address of its key. -/
def Owned (K : Kerl σ) (E : Encoding) (seed : List FlexTrit) (inputs : List Input) : Prop :=
  ∀ input ∈ inputs,
    iotaSignAddressGenFlexTrits K E seed input.keyIndex input.security.toNat = some input.address

/-- The first unsigned transaction is not one more of value zero on the address of the last
spend. -/
def NoStray (spends : List Spend) (us : List (List FlexTrit × Int64)) : Prop :=
  ∀ g, spends.getLast? = some g → ∀ s, us.head? = some s → ¬ (s.1 = g.address ∧ s.2 = 0)

/-- **Spend by spend the signatures check**, and what stands before a spend is not touched. -/
theorem InStep.validate (beyond : List FlexTrit) (h : InStep b st [] todo us) (hk : Kept b st)
    (hi : Indexed b)
    (ht : Trits t) (hl : t.length = 243) (hb : ∀ tx ∈ b, tx.bundle = pack E t)
    (hm : ∀ g ∈ todo, Matched inputs g.address) (hlev : SameLevels inputs todo)
    (hw : ∀ g ∈ todo, WholeFragments E g.security) (ho : Owned K E seed inputs)
    (hs : NoStray todo us) :
    ∃ n, ∀ st', st' = (signTx K E beyond seed inputs)^[n] st →
      InStep b st' [] [] us ∧ Kept b st' ∧
      st'.bundle.take st.position = st.bundle.take st.position ∧
      validateSignatures (kerlSponge K E) (pack E t) (st'.bundle.drop st.position) =
        validateSignatures (kerlSponge K E) (pack E t) (st'.bundle.drop st'.position) := by
  induction todo generalizing st with
  | nil =>
    refine ⟨0, ?_⟩
    rintro _ rfl
    exact ⟨h, hk, rfl, rfl⟩
  | cons g todo ih =>
    have hmg := hm g List.mem_cons_self
    obtain ⟨input, hmem, hia, tx, signature, htx, hsig, hst, hin, hk₁⟩ := h.spend (K := K) (E := E)
      hk hi hmg (hlev g List.mem_cons_self)
    -- the last spend of the rest is the last of all
    have hstop : NoStray todo us := by
      intro g' hg'
      refine hs g' ?_
      cases todo with
      | nil => cases hg'
      | cons g'' todo => rwa [List.getLast?_cons_cons]
    obtain ⟨n, hn⟩ := ih hin hk₁ (fun g' hg' => hm g' (List.mem_cons_of_mem _ hg'))
      (fun g' hg' => hlev g' (List.mem_cons_of_mem _ hg'))
      (fun g' hg' => hw g' (List.mem_cons_of_mem _ hg')) hstop
    refine ⟨n + 1, ?_⟩
    intro st' hst'
    obtain ⟨hin', hk', hfrozen, hvalid⟩ := hn st' hst'
    have hahead : (b.drop st.position).map slot =
        g.slots ++ (todo.flatMap Spend.slots ++ us) := by
      rw [h.ahead, List.nil_append, List.flatMap_cons, List.append_assoc]
    have hslots : ∀ l : List (Transaction (List FlexTrit)), l.map slot = b.map slot → ∀ p,
        (l.drop p).map slot = (b.drop p).map slot := fun l hl p => by
      rw [List.map_drop, List.map_drop, hl]
    have hpos : (signTx K E beyond seed inputs st).position = st.position + g.security := by
      rw [hst]
    have hbundle : (signTx K E beyond seed inputs st).bundle = withFragments st.position g.security
        (fragmentBytes E beyond signature) st.bundle := by rw [hst]
    rw [hpos, hbundle] at hfrozen
    rw [hpos] at hvalid
    refine ⟨hin', hk', ?_, ?_⟩
    · have htake := congrArg (List.take st.position) hfrozen
      rwa [List.take_take, List.take_take, Nat.min_eq_left (by omega), take_withFragments] at htake
    · -- the transactions of the spend, as they were just written
      have hgroup : (st'.bundle.drop st.position).take g.security =
          ((withFragments st.position g.security (fragmentBytes E beyond signature)
            st.bundle).drop st.position).take g.security := by
        have hdrop := congrArg (List.drop st.position) hfrozen
        rwa [List.drop_take, List.drop_take, Nat.add_sub_cancel_left] at hdrop
      have hroom : st.position + g.security ≤ st.bundle.length := by
        have hlen := congrArg List.length hahead
        rw [List.length_map, List.length_drop, List.length_append, g.length_slots] at hlen
        rw [hk.length]
        have := g.level
        omega
      have hsplit : st'.bundle.drop st.position = (st'.bundle.drop st.position).take g.security ++
          st'.bundle.drop (st.position + g.security) := by
        rw [← List.drop_drop, List.take_append_drop]
      have haddress : (kerlSponge K E).signatureAddress (pack E t)
          ((((st'.bundle.drop st.position).take g.security)).map (·.signature)) = g.address := by
        rw [hgroup, signatures_withFragments hroom]
        have htxb := hk.bundle hb tx (List.mem_of_getElem? htx)
        have hown := ho input hmem
        rw [hlev g List.mem_cons_self input hmem hia, hia] at hown
        rw [htxb] at hsig
        exact signatureAddress_fragments ht hl g.level (hw g List.mem_cons_self) hsig hown
      rw [← hvalid, hsplit]
      refine validateSignatures_spend ?_ ?_ haddress
      · rw [List.map_take, hslots _ hk'.map_slot, hahead, ← g.length_slots, List.take_left]
      · intro t' ht'
        have hrest : (st'.bundle.drop (st.position + g.security)).map slot =
            todo.flatMap Spend.slots ++ us := by
          rw [hslots _ hk'.map_slot, ← g.length_slots]
          exact (drop_map_append hahead).1
        have hhead : (todo.flatMap Spend.slots ++ us).head? = some (slot t') := by
          rw [← hrest, List.head?_map, ht', Option.map_some]
        -- the one behind belongs to the next spend, or comes after the last
        cases todo with
        | nil => exact hs g rfl (slot t') hhead
        | cons g' todo =>
          have hslot : (g'.address, g'.value) = slot t' := Option.some.inj hhead
          rw [← hslot]
          rintro ⟨-, hzero⟩
          have hneg := g'.negative
          rw [show g'.value = 0 from hzero] at hneg
          exact absurd hneg (by decide)

/-- Unsigned transactions are passed over, and the walk ends. -/
theorem InStep.finish (h : InStep b st us [] []) (hk : Kept b st)
    (hu : ∀ s ∈ us, (0 : Int64) ≤ s.2) :
    ∃ n, ∀ steps ≥ n, ((signTx K E beyond seed inputs)^[steps] st).outcome = .ok ∧
      Kept b ((signTx K E beyond seed inputs)^[steps] st) ∧
      ((signTx K E beyond seed inputs)^[steps] st).bundle = st.bundle := by
  induction us generalizing st with
  | nil =>
    have hend : st.bundle[st.position]? = none := by
      have hlen := congrArg List.length h.ahead
      rw [List.length_map, List.length_drop] at hlen
      rw [List.getElem?_eq_none_iff, hk.length]
      simp only [List.flatMap_nil, List.append_nil, List.length_nil] at hlen
      omega
    refine ⟨1, fun steps hs => ?_⟩
    obtain ⟨k, rfl⟩ : ∃ k, steps = k + 1 := ⟨steps - 1, by omega⟩
    have hfix : signTx K E beyond seed inputs { st with outcome := .ok } =
        { st with outcome := .ok } := signTx_stopped fun h => nomatch h
    rw [Function.iterate_succ_apply, signTx_end h.running hend, Function.iterate_fixed hfix]
    exact ⟨rfl, hk, rfl⟩
  | cons s us ih =>
    obtain ⟨hs, hus⟩ := List.forall_mem_cons.mp hu
    obtain ⟨hin, hk', -, hbundle⟩ := h.output (K := K) (E := E) hk hs
    obtain ⟨n, hn⟩ := ih hin hk' hus
    refine ⟨n + 1, fun steps hsteps => ?_⟩
    obtain ⟨k, rfl⟩ : ∃ k, steps = k + 1 := ⟨steps - 1, by omega⟩
    obtain ⟨hok, hkept, hsame⟩ := hn k (by omega)
    rw [Function.iterate_succ_apply]
    exact ⟨hok, hkept, hsame.trans hbundle⟩

/-- **The whole walk**, where every spend has an input: it ends, and the signatures check. -/
theorem signWalk_valid {L : Layout} (hslots : b.map slot = L.slots) (hi : Indexed b)
    (ht : Trits t) (hl : t.length = 243) (hb : ∀ tx ∈ b, tx.bundle = pack E t)
    (hm : ∀ g ∈ L.spends, Matched inputs g.address) (hlev : SameLevels inputs L.spends)
    (hw : ∀ g ∈ L.spends, WholeFragments E g.security) (ho : Owned K E seed inputs)
    (hs : NoStray L.spends L.unsigned) :
    ∃ n, ∀ steps ≥ n, (signWalk K E beyond seed inputs b steps).outcome = .ok ∧
      Kept b (signWalk K E beyond seed inputs b steps) ∧
      validateSignatures (kerlSponge K E) (pack E t)
        (signWalk K E beyond seed inputs b steps).bundle = true := by
  have hstart : InStep b ⟨b, 0, 0, [], .running⟩ L.outputs ([] ++ L.spends) L.unsigned :=
    ⟨rfl, rfl, by rw [List.drop_zero]; exact hslots⟩
  obtain ⟨n₁, hin₁, hk₁⟩ : ∃ n, InStep b (signWalk K E beyond seed inputs b n) [] L.spends
      L.unsigned ∧ Kept b (signWalk K E beyond seed inputs b n) :=
    hstart.iterate rfl hi L.outputs_nonneg (fun g hg => absurd hg List.not_mem_nil)
      fun g hg => absurd hg List.not_mem_nil
  obtain ⟨n₂, h₂⟩ := hin₁.validate beyond hk₁ hi ht hl hb hm hlev hw ho hs
  obtain ⟨hin₂, hk₂, -, hvalid⟩ := h₂ _ rfl
  have hin₂' : InStep b ((signTx K E beyond seed inputs)^[n₂]
      (signWalk K E beyond seed inputs b n₁)) L.unsigned [] [] :=
    ⟨hin₂.running, hin₂.synced, by rw [hin₂.ahead]; simp⟩
  obtain ⟨n₃, h₃⟩ : ∃ n, ∀ steps ≥ n, ((signTx K E beyond seed inputs)^[steps]
      ((signTx K E beyond seed inputs)^[n₂] (signWalk K E beyond seed inputs b n₁))).outcome =
        .ok ∧ Kept b _ ∧ _ := hin₂'.finish hk₂ L.unsigned_nonneg
  refine ⟨n₃ + n₂ + n₁, fun steps hsteps => ?_⟩
  obtain ⟨hok, hkept, hsame⟩ := h₃ (steps - n₂ - n₁) (by omega)
  have hrun : (signTx K E beyond seed inputs)^[steps - n₂ - n₁]
      ((signTx K E beyond seed inputs)^[n₂] (signWalk K E beyond seed inputs b n₁)) =
        signWalk K E beyond seed inputs b steps := by
    rw [signWalk, signWalk, ← Function.iterate_add_apply, ← Function.iterate_add_apply]
    congr 1
    omega
  rw [hrun] at hok hkept hsame
  refine ⟨hok, hkept, ?_⟩
  -- the outputs in front and the unsigned transactions behind are passed over
  have hahead₁ := hin₁.ahead
  generalize (signTx K E beyond seed inputs)^[n₂] (signWalk K E beyond seed inputs b n₁) = st₂
    at hin₂ hk₂ hvalid hsame
  generalize (signWalk K E beyond seed inputs b n₁).position = p at hahead₁ hvalid
  have hfront : (st₂.bundle.take p).map slot = L.outputs := by
    have hcut : (b.take p).map slot ++ (b.drop p).map slot = b.map slot := by
      rw [← List.map_append, List.take_append_drop]
    rw [hahead₁, hslots, Layout.slots, List.nil_append] at hcut
    rw [List.map_take, hk₂.map_slot, ← List.map_take]
    exact List.append_cancel_right hcut
  have hback : (st₂.bundle.drop st₂.position).map slot = L.unsigned := by
    rw [List.map_drop, hk₂.map_slot, ← List.map_drop, hin₂.ahead]
    simp
  have hnonneg : ∀ {l : List (Transaction (List FlexTrit))} {ss}, l.map slot = ss →
      (∀ s ∈ ss, (0 : Int64) ≤ s.2) → ∀ tx ∈ l, (0 : Int64) ≤ tx.value := by
    rintro l _ rfl h tx htx
    exact h _ (List.mem_map_of_mem htx)
  have hlast : validateSignatures (kerlSponge K E) (pack E t)
      (st₂.bundle.drop st₂.position ++ []) = _ :=
    validateSignatures_skip (hnonneg hback L.unsigned_nonneg)
  rw [List.append_nil] at hlast
  rw [hsame, ← List.take_append_drop p st₂.bundle,
    validateSignatures_skip (hnonneg hfront L.outputs_nonneg), hvalid, hlast]
  rfl

end Run

end Entangled
