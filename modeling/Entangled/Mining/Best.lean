import Entangled.Mining.Miner
/-!
# What has been mined

With no threshold, every worker tries as many numbers as it is told. Where each of them stands in the
essence that is hashed for it, what the workers keep is the lowest of what they have tried.
-/

namespace Entangled

namespace Mining

open Ternary Trinary

/-! ## The essence of a round -/

/-- The essence with other trits where the obsolete tag is. -/
def putTag (essence tag : List ℤ) : List ℤ :=
  essence.take obsoleteTagOffset ++ (tag ++ essence.drop (obsoleteTagOffset + numTritsObsoleteTag))

/-- The obsolete tag of an essence. -/
def obsoleteTag (essence : List ℤ) : List ℤ :=
  (essence.drop obsoleteTagOffset).take numTritsObsoleteTag

theorem putTag_obsoleteTag (essence : List ℤ) : putTag essence (obsoleteTag essence) = essence := by
  rw [putTag, obsoleteTag, ← List.drop_drop, List.take_append_drop, List.take_append_drop]

theorem length_obsoleteTag {essence : List ℤ} (h : 405 ≤ essence.length) :
    (obsoleteTag essence).length = 81 := by
  rw [obsoleteTag, List.length_take, List.length_drop, numTritsObsoleteTag, obsoleteTagOffset]
  omega

theorem putTag_inj {essence tag tag' : List ℤ} :
    putTag essence tag = putTag essence tag' ↔ tag = tag' := by
  rw [putTag, putTag, List.append_right_inj, List.append_left_inj]

theorem candidateEssence_eq {ctx : Ctx} {essence tag : List ℤ}
    (hctx : ctx.essence = putTag essence tag) (h : 324 ≤ essence.length) (hl : tag.length = 81) :
    candidateEssence ctx = putTag essence (longToTrits ctx.index.toInt64 tag).1 := by
  have hreach := reach_le ctx.index.toInt64
  have htake : (essence.take obsoleteTagOffset).length = obsoleteTagOffset := by
    rw [List.length_take, obsoleteTagOffset]
    omega
  have hhead : (putTag essence tag).take obsoleteTagOffset = essence.take obsoleteTagOffset :=
    List.take_left' htake
  have htail : (putTag essence tag).drop obsoleteTagOffset =
      tag ++ essence.drop (obsoleteTagOffset + numTritsObsoleteTag) := List.drop_left' htake
  rw [candidateEssence, hctx, hhead, htail, putTag,
    longToTrits_over _ (by rw [List.length_append]; omega), longToTrits_over _ (by omega),
    List.drop_append_of_le_length (by omega), List.append_assoc]

/-! ## One round -/

section Round

variable (kerl : List ℤ → List ℤ) (ctx : Ctx)

theorem mineRound_index : (mineRound kerl ctx).1.index = ctx.index := by
  unfold mineRound
  dsimp only
  split_ifs <;> rfl

theorem mineRound_essence : (mineRound kerl ctx).1.essence = candidateEssence ctx := by
  unfold mineRound
  dsimp only
  split_ifs <;> rfl

theorem mineRound_security : (mineRound kerl ctx).1.security = ctx.security := by
  unfold mineRound
  dsimp only
  split_ifs <;> rfl

theorem mineRound_bundleNormalizedMax :
    (mineRound kerl ctx).1.bundleNormalizedMax = ctx.bundleNormalizedMax := by
  unfold mineRound
  dsimp only
  split_ifs <;> rfl

theorem mineRound_miningThreshold :
    (mineRound kerl ctx).1.miningThreshold = ctx.miningThreshold := by
  unfold mineRound
  dsimp only
  split_ifs <;> rfl

/-- A threshold of zero is never reached. -/
theorem mineRound_stop {ctx : Ctx} (h : ctx.miningThreshold = 0) : (mineRound kerl ctx).2 = false := by
  unfold mineRound
  dsimp only
  rw [h]
  split_ifs <;> rfl

end Round

section Search

variable {kerl : List ℤ → List ℤ} {bundleNormalizedMax : List ℤ} {security : ℕ}
variable {essenceOf : UInt64 → List ℤ}

/-- What the workers keep: the lowest probability among the indices with a secure hash, and one that
has it. Before, it is one, for index zero. -/
def Kept (kerl : List ℤ → List ℤ) (bundleNormalizedMax : List ℤ) (security : ℕ)
    (essenceOf : UInt64 → List ℤ) (seen : List UInt64) (p : ℚ) (index : UInt64) : Prop :=
  Lowest (fun v => candidateIsSecure security (kerl (essenceOf v)) = true)
    (fun v => candidateProbability bundleNormalizedMax security (kerl (essenceOf v))) 1 0 seen p index

/-- A context that works on this hash and this maximum. -/
def Ctx.WorksOn (ctx : Ctx) (bundleNormalizedMax : List ℤ) (security : ℕ) : Prop :=
  ctx.bundleNormalizedMax = bundleNormalizedMax ∧ ctx.security = security

/-- **One round** keeps the lowest, where the candidate is the one of the index. -/
theorem kept_mineRound {ctx : Ctx} {seen : List UInt64}
    (h : Kept kerl bundleNormalizedMax security essenceOf seen ctx.probability ctx.optimalIndex)
    (hctx : ctx.WorksOn bundleNormalizedMax security)
    (hessence : candidateEssence ctx = essenceOf ctx.index) :
    Kept kerl bundleNormalizedMax security essenceOf (seen ++ [ctx.index])
      (mineRound kerl ctx).1.probability (mineRound kerl ctx).1.optimalIndex := by
  obtain ⟨rfl, rfl⟩ := hctx
  unfold mineRound
  dsimp only
  rw [hessence]
  split_ifs with hsecure hlt
  · exact h.improve hsecure hlt
  · exact h.keep fun _ => not_lt.mp hlt
  · exact h.keep fun hgood => absurd hgood hsecure

/-- **A worker** keeps the lowest of what it has tried. -/
theorem kept_bundleMinerMineRoutine (rounds : ℕ) (found : Option Bool) {ctx : Ctx}
    {seen : List UInt64}
    (h : Kept kerl bundleNormalizedMax security essenceOf seen ctx.probability ctx.optimalIndex)
    (hctx : ctx.WorksOn bundleNormalizedMax security)
    (hcarries : ∀ trial ∈ (bundleMinerMineRoutine kerl rounds found ctx).2.2,
      trial.essence = essenceOf trial.index) :
    Kept kerl bundleNormalizedMax security essenceOf
      (seen ++ (bundleMinerMineRoutine kerl rounds found ctx).2.2.map Trial.index)
      (bundleMinerMineRoutine kerl rounds found ctx).2.1.probability
      (bundleMinerMineRoutine kerl rounds found ctx).2.1.optimalIndex := by
  induction rounds generalizing found ctx seen with
  | zero =>
    rw [bundleMinerMineRoutine, List.map_nil, List.append_nil]
    exact h
  | succ rounds ih =>
    rw [bundleMinerMineRoutine] at hcarries ⊢
    by_cases hfound : found = some true
    · rw [if_pos hfound, List.map_nil, List.append_nil]
      exact h
    rw [if_neg hfound] at hcarries ⊢
    by_cases hstop : (mineRound kerl ctx).2 = true
    · rw [if_pos hstop] at hcarries ⊢
      exact kept_mineRound h hctx (hcarries ⟨ctx.index, candidateEssence ctx⟩ List.mem_cons_self)
    · rw [if_neg hstop] at hcarries ⊢
      have hround := kept_mineRound h hctx
        (hcarries ⟨ctx.index, candidateEssence ctx⟩ List.mem_cons_self)
      have hnext := @ih found { (mineRound kerl ctx).1 with
          index := (mineRound kerl ctx).1.index + 1 } _ hround
        ⟨(mineRound_bundleNormalizedMax kerl ctx).trans hctx.1,
          (mineRound_security kerl ctx).trans hctx.2⟩
        fun trial ht => hcarries trial (List.mem_cons_of_mem _ ht)
      rw [List.append_assoc] at hnext
      exact hnext

/-- **The join** keeps the lowest of what all workers have tried. -/
theorem kept_joinWorkers {workers : List (Ctx × List Trial)}
    (h : ∀ worker ∈ workers, Kept kerl bundleNormalizedMax security essenceOf
      (worker.2.map Trial.index) worker.1.probability worker.1.optimalIndex) :
    Kept kerl bundleNormalizedMax security essenceOf
      ((workers.flatMap Prod.snd).map Trial.index)
      (joinWorkers (workers.map Prod.fst)).1 (joinWorkers (workers.map Prod.fst)).2 := by
  have hfold : ∀ (workers : List (Ctx × List Trial)) (seen : List UInt64) (best : ℚ × UInt64),
      (∀ worker ∈ workers, Kept kerl bundleNormalizedMax security essenceOf
        (worker.2.map Trial.index) worker.1.probability worker.1.optimalIndex) →
      Kept kerl bundleNormalizedMax security essenceOf seen best.1 best.2 →
      Kept kerl bundleNormalizedMax security essenceOf
        (seen ++ (workers.flatMap Prod.snd).map Trial.index)
        ((workers.map Prod.fst).foldl (fun best ctx =>
          if ctx.probability < best.1 then (ctx.probability, ctx.optimalIndex) else best) best).1
        ((workers.map Prod.fst).foldl (fun best ctx =>
          if ctx.probability < best.1 then (ctx.probability, ctx.optimalIndex) else best) best).2 := by
    intro workers
    induction workers with
    | nil =>
      intro seen best _ hbest
      rw [List.flatMap_nil, List.map_nil, List.append_nil]
      exact hbest
    | cons worker workers ih =>
      intro seen best hworkers hbest
      have hstep := hbest.append (hworkers worker List.mem_cons_self)
      rw [List.flatMap_cons, List.map_append, ← List.append_assoc, List.map_cons, List.foldl_cons]
      refine ih _ _ (fun w hw => hworkers w (List.mem_cons_of_mem _ hw)) ?_
      split_ifs at hstep ⊢ with hlt
      · exact hstep
      · exact hstep
  exact hfold workers [] (1, 0) h Lowest.nil

end Search

/-! ## What is tried -/

/-- **Without a threshold** a worker tries every number it is told to, and leaves the flag alone. -/
theorem bundleMinerMineRoutine_trials (kerl : List ℤ → List ℤ) (rounds : ℕ) {found : Option Bool}
    (hfound : found ≠ some true) {ctx : Ctx} (hthreshold : ctx.miningThreshold = 0)
    {essence tag : List ℤ} (hctx : ctx.essence = putTag essence tag) (h : 324 ≤ essence.length)
    (hl : tag.length = 81) :
    (bundleMinerMineRoutine kerl rounds found ctx).1 = found ∧
      (bundleMinerMineRoutine kerl rounds found ctx).2.2 = (List.range rounds).map fun k =>
        ⟨ctx.index + UInt64.ofNat k, putTag essence (tagAt ctx.index.toInt64 tag k)⟩ := by
  induction rounds generalizing ctx tag with
  | zero => exact ⟨rfl, rfl⟩
  | succ rounds ih =>
    have hcandidate := candidateEssence_eq hctx h hl
    have hlen : (longToTrits ctx.index.toInt64 tag).1.length = tag.length :=
      length_longToTrits _ (by omega)
    obtain ⟨hflag, htrials⟩ := @ih { (mineRound kerl ctx).1 with
        index := (mineRound kerl ctx).1.index + 1 }
      ((mineRound_miningThreshold kerl ctx).trans hthreshold) _
      ((mineRound_essence kerl ctx).trans hcandidate) (hlen.trans hl)
    have hstop : ¬ (mineRound kerl ctx).2 = true := by
      rw [mineRound_stop kerl hthreshold]
      decide
    rw [bundleMinerMineRoutine, if_neg hfound, if_neg hstop]
    refine ⟨hflag, ?_⟩
    dsimp only at htrials ⊢
    rw [htrials, List.range_succ_eq_map, List.map_cons, List.map_map, mineRound_index, hcandidate]
    refine congrArg₂ List.cons ?_ (List.map_congr_left fun k _ => ?_)
    · rw [tagAt]
      exact congrArg (Trial.mk · _) (UInt64.add_zero ctx.index).symm
    · dsimp only [Function.comp_apply]
      have hindex : ctx.index + 1 + UInt64.ofNat k = ctx.index + UInt64.ofNat (k + 1) := by
        rw [UInt64.ofNat_add, UInt64.add_assoc, UInt64.add_comm 1]
        rfl
      rw [hindex, UInt64.toInt64_add, tagAt]
      rfl

end Mining

end Entangled
