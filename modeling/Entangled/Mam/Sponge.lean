import Entangled.Mam.Wots
/-!
# What the sponge is given

The generator absorbs a key and some nonces and squeezes what is asked for. Between two blocks the
state is to be transformed; whether it is, a trit in the control part says. `sponge_set_control012`
is to set that trit, but moves on in a copy of its view of the state, so all three trits go to the
first place and that one stays zero. Each block is written over the one before, and the permutation
is called on the last.
-/

namespace Entangled

namespace Mam

open Spongos

/-! ## Several inputs -/

/-- `buffers_t`. -/
structure Buffers where
  head : List Trit
  tail : List (List Trit)

/-- `buffers_init`. -/
def buffersInit (trits : List (List Trit)) : Buffers := ⟨[], trits⟩

/-- The loop of `buffers_size`. -/
def buffersSizeFrom : List Trit → List (List Trit) → ℕ → ℕ
  | head, [], m => m + head.length
  | head, trits :: tail, m => buffersSizeFrom trits tail (m + head.length)

/-- `buffers_size`. -/
def buffersSize (buffers : Buffers) : ℕ := buffersSizeFrom buffers.head buffers.tail 0

/-- The loop of `buffers_copy_to`, into room for `n` trits: what is copied, and what is left. -/
def buffersCopyFrom : List Trit → List (List Trit) → ℕ → List Trit × Buffers
  | head, [], n => (head.take n, ⟨head.drop n, []⟩)
  | head, trits :: tail, n =>
    if n = 0 then ([], ⟨head, trits :: tail⟩)
    else if head.length ≤ n then
      let (copied, buffers) := buffersCopyFrom trits tail (n - head.length)
      (head ++ copied, buffers)
    else (head.take n, ⟨head.drop n, trits :: tail⟩)

/-- `buffers_copy_to`. -/
def buffersCopyTo (buffers : Buffers) (n : ℕ) : List Trit × Buffers :=
  buffersCopyFrom buffers.head buffers.tail n

/-- What is in the buffers. -/
def Buffers.trits (buffers : Buffers) : List Trit := buffers.head ++ buffers.tail.flatten

theorem buffersSizeFrom_eq (head : List Trit) (tail : List (List Trit)) (m : ℕ) :
    buffersSizeFrom head tail m = m + (head ++ tail.flatten).length := by
  induction tail generalizing head m with
  | nil => rw [buffersSizeFrom, List.flatten_nil, List.append_nil]
  | cons trits tail ih =>
    have happend : (head ++ (trits ++ tail.flatten)).length =
        head.length + (trits ++ tail.flatten).length := List.length_append
    rw [buffersSizeFrom, ih, List.flatten_cons, happend, Nat.add_assoc]

theorem buffersSize_eq (buffers : Buffers) : buffersSize buffers = buffers.trits.length := by
  rw [buffersSize, buffersSizeFrom_eq, Nat.zero_add, Buffers.trits]

theorem buffersCopyFrom_eq (head : List Trit) (tail : List (List Trit)) (n : ℕ) :
    (buffersCopyFrom head tail n).1 = (head ++ tail.flatten).take n ∧
      (buffersCopyFrom head tail n).2.trits = (head ++ tail.flatten).drop n := by
  induction tail generalizing head n with
  | nil => simp [buffersCopyFrom, Buffers.trits]
  | cons trits tail ih =>
    rw [buffersCopyFrom]
    split_ifs with h0 hle
    · simp [h0, Buffers.trits]
    · obtain ⟨hcopied, hleft⟩ := ih trits (n - head.length)
      refine ⟨?_, ?_⟩
      · rw [List.take_append, List.take_of_length_le hle, List.flatten_cons]
        exact congrArg _ hcopied
      · rw [List.drop_append, List.drop_of_length_le hle, List.flatten_cons, List.nil_append]
        exact hleft
    · rw [not_le] at hle
      refine ⟨?_, ?_⟩
      · rw [List.take_append_of_le_length hle.le]
      · rw [List.drop_append_of_le_length hle.le]
        rfl

/-- **What is copied is what comes first**, however it is split. -/
theorem buffersCopyTo_eq (buffers : Buffers) (n : ℕ) :
    (buffersCopyTo buffers n).1 = buffers.trits.take n ∧
      (buffersCopyTo buffers n).2.trits = buffers.trits.drop n :=
  buffersCopyFrom_eq _ _ _

/-! ## The sponge -/

/-- `mam_sponge_t`, with the states that the permutation has been called on. -/
structure Sponge where
  state : List Trit
  calls : List (List Trit)

section Sponge

variable (T : Troika)

/-- `mam_sponge_init`. -/
def Sponge.init : Sponge := ⟨List.replicate spongeWidth .zero, []⟩

/-- `mam_sponge_transform`. -/
def Sponge.transform (s : Sponge) : Sponge := ⟨T.transform s.state, s.calls ++ [s.state]⟩

/-- The loop of `mam_sponge_absorbn`, with `m` trits to go. -/
def mamSpongeAbsorbFrom (c2 : Trit) (s : Sponge) (buffers : Buffers) (m : ℕ) : Sponge :=
  let ni := if m < spongeRate then m else spongeRate
  let c0 := if ni < spongeRate then Trit.zero else .pos
  let c1 := if m - ni = 0 then Trit.neg else .pos
  let s :=
    if s.state.getD (spongeRate + 1) .zero ≠ .zero then
      Sponge.transform T { s with state := spongeSetControl345 s.state c0 c1 c2 }
    else s
  let (copied, buffers) := buffersCopyTo buffers ni
  let state := blit s.state 0 (copied ++ padc (spongeRate - ni))
  let s := { s with state := spongeSetControl012 state c0 c1 c2 }
  if m - ni = 0 then s else mamSpongeAbsorbFrom c2 s buffers (m - ni)
termination_by m
decreasing_by
  rename_i hne
  have hpos : 0 < spongeRate := by decide
  split_ifs at hne ⊢ <;> omega

/-- `mam_sponge_absorbn`. -/
def mamSpongeAbsorbn (c2 : Trit) (s : Sponge) (dataBlocks : List (List Trit)) : Sponge :=
  let buffers := buffersInit dataBlocks
  mamSpongeAbsorbFrom T c2 s buffers (buffersSize buffers)

/-- `mam_sponge_squeeze`, of `n` trits. -/
def mamSpongeSqueeze (c2 : Trit) (s : Sponge) (n : ℕ) : List Trit × Sponge :=
  let ni := min n spongeRate
  let c1 := if n - ni = 0 then Trit.neg else .pos
  let s := Sponge.transform T { s with state := spongeSetControl345 s.state .neg c1 c2 }
  let squeezed := s.state.take ni
  let state := blit s.state 0 (List.replicate ni .zero ++ padc (spongeRate - ni))
  let s := { s with state := spongeSetControl012 state .neg c1 c2 }
  if n - ni = 0 then (squeezed, s)
  else
    let (rest, s) := mamSpongeSqueeze c2 s (n - ni)
    (squeezed ++ rest, s)
termination_by n
decreasing_by
  rename_i hne
  have hpos : 0 < spongeRate := by decide
  omega

/-- `mam_prng_gen5`, of `n` trits: what is generated, and the sponge it is generated with. -/
def mamPrngGen5 (secretKey : List Trit) (destination : ℤ) (nonces : List (List Trit)) (n : ℕ) :
    List Trit × Sponge :=
  mamSpongeSqueeze T .pos
    (mamSpongeAbsorbn T .pos Sponge.init (secretKey :: put3 destination :: nonces)) n

end Sponge

variable {T : Troika}

/-! ## What the sponge is in trits -/

/-- **The sponge does what the generator's does**, however its input is split. -/
theorem state_mamSpongeAbsorbFrom {c2 : Trit} {m : ℕ} {s : Sponge} {buffers : Buffers}
    (hm : buffers.trits.length = m) :
    (mamSpongeAbsorbFrom T c2 s buffers m).state = spongeAbsorbn T c2 s.state buffers.trits := by
  induction m using Nat.strong_induction_on generalizing s buffers with
  | _ m ih =>
    have hni : (if m < spongeRate then m else spongeRate) = min spongeRate m := by
      split_ifs <;> omega
    obtain ⟨hcopied, hleft⟩ := buffersCopyTo_eq buffers (min spongeRate m)
    have hchunk : (buffers.trits.take spongeRate).length = min spongeRate m := by
      rw [List.length_take, hm]
    have hsame : buffers.trits.take (min spongeRate m) = buffers.trits.take spongeRate := by
      rw [List.take_eq_take_iff, hm]
      omega
    have hrest : buffers.trits.drop (min spongeRate m) = buffers.trits.drop spongeRate := by
      rw [List.drop_eq_drop_iff, hm]
      omega
    have hdone : m - min spongeRate m = 0 ↔ buffers.trits.drop spongeRate = [] := by
      rw [List.drop_eq_nil_iff, hm]
      omega
    have hlen : (buffersCopyTo buffers (min spongeRate m)).2.trits.length =
        m - min spongeRate m := by
      rw [hleft, List.length_drop, hm]
    rw [mamSpongeAbsorbFrom, spongeAbsorbn]
    dsimp only
    rw [hni, hcopied, hsame, hchunk]
    simp only [hdone]
    by_cases hlast : buffers.trits.drop spongeRate = []
    · simp only [if_pos hlast, apply_ite Sponge.state, Sponge.transform]
    · have hlt : m - min spongeRate m < m := by
        rw [List.drop_eq_nil_iff, hm, not_le] at hlast
        have hpos : 0 < spongeRate := by decide
        omega
      simp only [if_neg hlast]
      rw [ih _ hlt hlen, hleft, hrest]
      simp only [apply_ite Sponge.state, Sponge.transform]

theorem state_mamSpongeAbsorbn (c2 : Trit) (s : Sponge) (dataBlocks : List (List Trit)) :
    (mamSpongeAbsorbn T c2 s dataBlocks).state = spongeAbsorbn T c2 s.state dataBlocks.flatten :=
  state_mamSpongeAbsorbFrom (buffersSize_eq _).symm

theorem squeezed_mamSpongeSqueeze (c2 : Trit) (s : Sponge) (n : ℕ) :
    (mamSpongeSqueeze T c2 s n).1 = spongeSqueeze T c2 s.state n := by
  induction n using Nat.strong_induction_on generalizing s with
  | _ n ih =>
    rw [mamSpongeSqueeze, spongeSqueeze]
    by_cases hlast : n - min n spongeRate = 0
    · simp only [if_pos hlast]
      rfl
    · have hlt : n - min n spongeRate < n := by
        have hpos : 0 < spongeRate := by decide
        omega
      simp only [if_neg hlast]
      rw [ih _ hlt]
      rfl

/-- **What is generated** is what `prngGen5` says. -/
theorem generated_mamPrngGen5 (secretKey : List Trit) (destination : ℤ) (nonces : List (List Trit))
    (n : ℕ) :
    (mamPrngGen5 T secretKey destination nonces n).1 =
      prngGen5 T secretKey destination nonces n := by
  rw [mamPrngGen5, squeezed_mamSpongeSqueeze, state_mamSpongeAbsorbn]
  rfl

/-! ## What is left of the input -/

/-- The last block of the input, filled up. -/
def lastBlock (data : List Trit) : List Trit :=
  let part := data.drop (spongeRate * ((data.length - 1) / spongeRate))
  part ++ padc (spongeRate - part.length)

theorem length_lastPart (data : List Trit) :
    (data.drop (spongeRate * ((data.length - 1) / spongeRate))).length ≤ spongeRate := by
  rw [List.length_drop]
  unfold spongeRate
  omega

theorem length_lastBlock (data : List Trit) : (lastBlock data).length = spongeRate := by
  have hpart := length_lastPart data
  unfold lastBlock
  dsimp only
  rw [List.length_append, length_padc]
  omega

/-- A single block is all of it. -/
theorem lastBlock_of_le {data : List Trit} (hdata : data.length ≤ spongeRate) :
    lastBlock data = data ++ padc (spongeRate - data.length) := by
  have hzero : (data.length - 1) / spongeRate = 0 := by
    unfold spongeRate at *
    omega
  unfold lastBlock
  rw [hzero, Nat.mul_zero, List.drop_zero]

/-- A block with others behind it is not. -/
theorem lastBlock_append (part : List Trit) {data : List Trit} (hpart : spongeRate ∣ part.length)
    (hdata : data ≠ []) : lastBlock (part ++ data) = lastBlock data := by
  obtain ⟨k, hk⟩ := hpart
  have hpos := List.length_pos_iff.mpr hdata
  have hblocks : spongeRate * (((part ++ data).length - 1) / spongeRate) =
      part.length + spongeRate * ((data.length - 1) / spongeRate) := by
    rw [List.length_append, hk]
    unfold spongeRate
    omega
  unfold lastBlock
  rw [hblocks, ← List.drop_drop, List.drop_left]

/-- A block and its control trits: all of these go to one place. -/
theorem setControl012_blit {state block : List Trit} (hstate : state.length = spongeWidth)
    (hblock : block.length = spongeRate) (c0 c1 c2 : Trit) :
    spongeSetControl012 (blit state 0 block) c0 c1 c2 =
      block ++ c2 :: state.drop (spongeRate + 1) := by
  have hlt : spongeRate < state.length := by rw [hstate]; decide
  rw [spongeSetControl012, List.set_set, List.set_set, blit, List.take_zero, List.nil_append,
    Nat.zero_add, List.set_append_right _ _ hblock.le, hblock, Nat.sub_self,
    List.drop_eq_getElem_cons hlt, List.set_cons_zero]

theorem length_behind {state block : List Trit} (hstate : state.length = spongeWidth)
    (hblock : block.length = spongeRate) (c2 : Trit) :
    (block ++ c2 :: state.drop (spongeRate + 1)).length = spongeWidth := by
  rw [List.length_append, List.length_cons, List.length_drop, hblock, hstate]
  decide

theorem getD_behind {state block : List Trit} (hblock : block.length = spongeRate) (c2 : Trit) :
    (block ++ c2 :: state.drop (spongeRate + 1)).getD (spongeRate + 1) .zero =
      state.getD (spongeRate + 1) .zero := by
  rw [List.getD_eq_getElem?_getD, List.getD_eq_getElem?_getD,
    List.getElem?_append_right (by omega), hblock, Nat.add_sub_cancel_left, List.getElem?_cons_succ,
    List.getElem?_drop, Nat.add_zero]

/-- **The state that was absorbed into is the last block**, if the trit that says whether to
transform is not set. -/
theorem mamSpongeAbsorbFrom_eq {c2 : Trit} {m : ℕ} {s : Sponge} {buffers : Buffers}
    (hm : buffers.trits.length = m) (hstate : s.state.length = spongeWidth)
    (hunset : s.state.getD (spongeRate + 1) .zero = .zero) :
    mamSpongeAbsorbFrom T c2 s buffers m =
      ⟨lastBlock buffers.trits ++ c2 :: s.state.drop (spongeRate + 1), s.calls⟩ := by
  induction m using Nat.strong_induction_on generalizing s buffers with
  | _ m ih =>
    obtain ⟨hcopied, hleft⟩ := buffersCopyTo_eq buffers (if m < spongeRate then m else spongeRate)
    rw [mamSpongeAbsorbFrom]
    dsimp only
    rw [if_neg (not_not.mpr hunset), hcopied]
    by_cases hlast : m ≤ spongeRate
    · have hni : (if m < spongeRate then m else spongeRate) = m := by split_ifs <;> omega
      have hall : buffers.trits.take m = buffers.trits := List.take_of_length_le hm.le
      rw [hni, if_pos (Nat.sub_self m), hall, ← hm,
        ← lastBlock_of_le (by omega : buffers.trits.length ≤ spongeRate),
        setControl012_blit hstate (length_lastBlock _)]
    · have hni : (if m < spongeRate then m else spongeRate) = spongeRate := if_neg (by omega)
      have hfull : (buffers.trits.take spongeRate).length = spongeRate := by
        rw [List.length_take, hm]
        omega
      have hpad : buffers.trits.take spongeRate ++ padc (spongeRate - spongeRate) =
          buffers.trits.take spongeRate := by
        rw [Nat.sub_self]
        exact List.append_nil _
      rw [hni] at hleft ⊢
      have hlen : (buffersCopyTo buffers spongeRate).2.trits.length = m - spongeRate := by
        rw [hleft, List.length_drop, hm]
      have hne : buffers.trits.drop spongeRate ≠ [] := by
        rw [← List.length_pos_iff, List.length_drop, hm]
        omega
      have hpos : 0 < spongeRate := by decide
      -- the block is written over by what is behind it
      have hblocks := lastBlock_append (buffers.trits.take spongeRate) (by rw [hfull]) hne
      rw [List.take_append_drop] at hblocks
      rw [if_neg (by omega), hpad, setControl012_blit hstate hfull,
        ih _ (by omega) hlen (length_behind hstate hfull c2) ((getD_behind hfull c2).trans hunset),
        hleft, hblocks]
      dsimp only
      rw [← List.drop_drop, List.drop_left' hfull]
      rfl

/-- **What an input leaves of itself** in a new sponge. -/
theorem mamSpongeAbsorbn_init (c2 : Trit) (dataBlocks : List (List Trit)) :
    mamSpongeAbsorbn T c2 Sponge.init dataBlocks =
      ⟨lastBlock dataBlocks.flatten ++ c2 :: List.replicate 242 .zero, []⟩ := by
  refine (mamSpongeAbsorbFrom_eq (buffersSize_eq _).symm List.length_replicate ?_).trans ?_
  · rw [Sponge.init, List.getD_eq_getElem?_getD, List.getElem?_replicate]
    rfl
  · rw [Sponge.init, List.drop_replicate]
    rfl

/-! ## The states the permutation is called on -/

/-- The states that the permutation is called on for an input and `n` trits of output. -/
def spongeCalls (T : Troika) (c2 c2' : Trit) (dataBlocks : List (List Trit)) (n : ℕ) :
    List (List Trit) :=
  (mamSpongeSqueeze T c2' (mamSpongeAbsorbn T c2 Sponge.init dataBlocks) n).2.calls

/-- The first call of the permutation is on the state that is squeezed. -/
theorem calls_mamSpongeSqueeze (c2 : Trit) (s : Sponge) (n : ℕ) :
    ∃ c1 calls, (mamSpongeSqueeze T c2 s n).2.calls =
      s.calls ++ spongeSetControl345 s.state .neg c1 c2 :: calls := by
  induction n using Nat.strong_induction_on generalizing s with
  | _ n ih =>
    rw [mamSpongeSqueeze]
    by_cases hlast : n - min n spongeRate = 0
    · simp only [if_pos hlast]
      exact ⟨.neg, [], rfl⟩
    · have hlt : n - min n spongeRate < n := by
        have hpos : 0 < spongeRate := by decide
        omega
      simp only [if_neg hlast]
      obtain ⟨c1, calls, hcalls⟩ := ih _ hlt (Sponge.mk (spongeSetControl012 (blit
        (T.transform (spongeSetControl345 s.state .neg .pos c2)) 0
        (List.replicate (min n spongeRate) .zero ++ padc (spongeRate - min n spongeRate))) .neg .pos
        c2) (s.calls ++ [spongeSetControl345 s.state .neg .pos c2]))
      exact ⟨.pos, _, hcalls.trans (List.append_assoc _ _ _)⟩

/-- What the first call is on tells the last block. -/
theorem take_setControl345 (block state : List Trit) (hblock : block.length = spongeRate)
    (c3 c4 c5 : Trit) :
    (spongeSetControl345 (block ++ state) c3 c4 c5).take spongeRate = block := by
  rw [spongeSetControl345, List.set_set, List.set_set, List.set_append_right _ _ (by omega),
    List.take_left' hblock]

/-- **The calls tell the last block of the input**, and nothing else of it. -/
theorem spongeCalls_eq_iff (c2 c2' : Trit) (dataBlocks dataBlocks' : List (List Trit)) (n : ℕ) :
    spongeCalls T c2 c2' dataBlocks n = spongeCalls T c2 c2' dataBlocks' n ↔
      lastBlock dataBlocks.flatten = lastBlock dataBlocks'.flatten := by
  unfold spongeCalls
  rw [mamSpongeAbsorbn_init, mamSpongeAbsorbn_init]
  constructor
  · intro hcalls
    obtain ⟨c1, calls, h⟩ := calls_mamSpongeSqueeze (T := T) c2'
      ⟨lastBlock dataBlocks.flatten ++ c2 :: List.replicate 242 .zero, []⟩ n
    obtain ⟨c1', calls', h'⟩ := calls_mamSpongeSqueeze (T := T) c2'
      ⟨lastBlock dataBlocks'.flatten ++ c2 :: List.replicate 242 .zero, []⟩ n
    rw [h, h', List.nil_append, List.nil_append] at hcalls
    have hfirst := congrArg (List.take spongeRate) (List.cons.inj hcalls).1
    rwa [take_setControl345 _ _ (length_lastBlock _),
      take_setControl345 _ _ (length_lastBlock _)] at hfirst
  · intro hblock
    rw [hblock]

/-! ## The generator's key -/

/-- The states that the permutation is called on for a secret key. -/
def prngCalls (T : Troika) (secretKey : List Trit) (destination : ℤ) (nonces : List (List Trit))
    (n : ℕ) : List (List Trit) :=
  (mamPrngGen5 T secretKey destination nonces n).2.calls

/-- Every trit of the secret key matters for what the permutation is called on. -/
def KeyMatters (T : Troika) (destination : ℤ) (nonces : List (List Trit)) (n : ℕ) : Prop :=
  ∀ secretKey : List Trit, secretKey.length = 243 → ∀ i < 243, ∀ t, secretKey[i]? ≠ some t →
    prngCalls T (secretKey.set i t) destination nonces n ≠ prngCalls T secretKey destination nonces n

/-- The key and what is behind it are one block. -/
def OneBlock (nonces : List (List Trit)) : Prop :=
  243 + 3 + (nonces.map List.length).sum ≤ spongeRate

theorem prngCalls_eq_iff {secretKey secretKey' : List Trit} (destination : ℤ)
    (nonces : List (List Trit)) (n : ℕ) :
    prngCalls T secretKey destination nonces n = prngCalls T secretKey' destination nonces n ↔
      lastBlock (secretKey ++ (put3 destination ++ nonces.flatten)) =
        lastBlock (secretKey' ++ (put3 destination ++ nonces.flatten)) :=
  spongeCalls_eq_iff .pos .pos (secretKey :: put3 destination :: nonces)
    (secretKey' :: put3 destination :: nonces) n

theorem length_behind_key (destination : ℤ) (nonces : List (List Trit)) :
    (put3 destination ++ nonces.flatten).length = 3 + (nonces.map List.length).sum := by
  rw [List.length_append, length_put3, List.length_flatten]

/-- **A key in the only block** matters. -/
theorem keyMatters_of_oneBlock {destination : ℤ} {nonces : List (List Trit)} {n : ℕ}
    (hone : OneBlock nonces) : KeyMatters T destination nonces n := by
  intro secretKey hkey i hi t hne hsame
  have hbehind := length_behind_key destination nonces
  unfold OneBlock at hone
  rw [prngCalls_eq_iff, lastBlock_of_le (by rw [List.length_append, List.length_set, hbehind]; omega),
    lastBlock_of_le (by rw [List.length_append, hbehind]; omega)] at hsame
  simp only [List.append_assoc] at hsame
  have hkeys := List.append_inj_left hsame List.length_set
  refine hne ?_
  rw [← hkeys, List.getElem?_set_self (by omega)]

/-- **A key in a block with others behind it** does not matter at all. -/
theorem prngCalls_of_not_oneBlock {nonces : List (List Trit)} (hmore : ¬ OneBlock nonces)
    {secretKey secretKey' : List Trit} (hkey : secretKey.length = 243)
    (hkey' : secretKey'.length = 243) (destination : ℤ) (n : ℕ) :
    prngCalls T secretKey destination nonces n = prngCalls T secretKey' destination nonces n := by
  rw [prngCalls_eq_iff]
  have hbehind := length_behind_key destination nonces
  generalize put3 destination ++ nonces.flatten = data at hbehind ⊢
  have hlong : spongeRate - 243 < data.length := by
    unfold OneBlock at hmore
    omega
  have hwhole : ∀ key : List Trit, key.length = 243 →
      lastBlock (key ++ data) = lastBlock (data.drop (spongeRate - 243)) := by
    intro key hlen
    have hblock : (key ++ data.take (spongeRate - 243)).length = spongeRate := by
      rw [List.length_append, List.length_take, hlen]
      have : spongeRate = 486 := rfl
      omega
    have hne : data.drop (spongeRate - 243) ≠ [] := by
      rw [← List.length_pos_iff, List.length_drop]
      omega
    have hsplit := lastBlock_append (key ++ data.take (spongeRate - 243)) (by rw [hblock]) hne
    rwa [List.append_assoc, List.take_append_drop] at hsplit
  rw [hwhole _ hkey, hwhole _ hkey']

/-- **The calls of the permutation tell of two inputs exactly that their last blocks differ**, and
those of the generator depend on its key exactly when this is in the only block. -/
theorem sponge_remembers_last_block (T : Troika) :
    (∀ (c2 c2' : Trit) (dataBlocks dataBlocks' : List (List Trit)) (n : ℕ),
      spongeCalls T c2 c2' dataBlocks n ≠ spongeCalls T c2 c2' dataBlocks' n ↔
        lastBlock dataBlocks.flatten ≠ lastBlock dataBlocks'.flatten) ∧
    ∀ (destination : ℤ) (nonces : List (List Trit)) (n : ℕ),
      KeyMatters T destination nonces n ↔ OneBlock nonces := by
  refine ⟨fun c2 c2' dataBlocks dataBlocks' n => (spongeCalls_eq_iff _ _ _ _ _).not,
    fun destination nonces n => ⟨fun hmatters => ?_, keyMatters_of_oneBlock⟩⟩
  by_contra hmore
  have hzeros : (List.replicate 243 Trit.zero).length = 243 := List.length_replicate
  have hfirst : (List.replicate 243 Trit.zero)[0]? ≠ some .pos := by
    rw [List.getElem?_replicate, if_pos (by decide)]
    decide
  refine hmatters (List.replicate 243 .zero) hzeros 0 (by decide) .pos hfirst ?_
  exact prngCalls_of_not_oneBlock hmore (by rw [List.length_set, hzeros]) hzeros destination n

/-- `ntru_pk_encr`: what the permutation is called on to make the blinding polynomial. -/
def ntruPkEncrCalls (T : Troika) (secretKey pkId sessionKey nonce : List Trit) : List (List Trit) :=
  prngCalls T secretKey 2 [pkId, sessionKey, nonce, [], []] 1024

/-- **The secret key of who encrypts a session key** does not matter for the blinding. -/
theorem not_sponge_remembers_ntru :
    ¬ ∀ (T : Troika) (pkId sessionKey nonce : List Trit), pkId.length = 81 →
      sessionKey.length = 243 → nonce.length = 63 → ∀ secretKey secretKey' : List Trit,
        secretKey.length = 243 → secretKey'.length = 243 → secretKey ≠ secretKey' →
          ntruPkEncrCalls T secretKey pkId sessionKey nonce ≠
            ntruPkEncrCalls T secretKey' pkId sessionKey nonce := by
  intro hall
  refine hall ⟨id, fun _ h => h⟩ (List.replicate 81 .zero) (List.replicate 243 .zero)
    (List.replicate 63 .zero) List.length_replicate List.length_replicate List.length_replicate
    (List.replicate 243 .zero) (List.replicate 243 .pos) List.length_replicate List.length_replicate
    (fun hsame => absurd (congrArg List.head? hsame) (by decide)) ?_
  refine prngCalls_of_not_oneBlock ?_ List.length_replicate List.length_replicate 2 1024
  simp [OneBlock, spongeRate]

end Mam

end Entangled
