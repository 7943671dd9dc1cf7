import Entangled.Common.Lowest
import Entangled.Mining.Tag
import Entangled.Signing.Normalize
import Mathlib.Algebra.Order.Floor.Ring
import Mathlib.Data.Rat.Floor
/-!
# The bundle miner

Every worker counts through its part of the numbers from the obsolete tag on, writes each of them
into its copy of the essence and keeps the one whose hash is least likely to lose funds. Of what the
workers have kept, `bundle_miner_mine` takes the best. Numbers of type `double` are rationals here,
and `kerl` is the function from an essence to its hash. Memory can always be had. The workers run one
after the other: while no threshold is set, nothing is passed between them.
-/

namespace Entangled

namespace Mining

open Ternary Trinary

/-- `OBSOLETE_TAG_OFFSET`: the trits of the address and of the value. -/
def obsoleteTagOffset : ℕ := 243 + 81

/-- `NUM_TRITS_OBSOLETE_TAG`. -/
def numTritsObsoleteTag : ℕ := 81

/-- `NORMALIZED_FRAGMENT_LENGTH`. -/
def normalizedFragmentLength : ℕ := 27

/-- What the miner can fail with. -/
inductive Retcode
  | nullParam
  | badParam
  | oom
  deriving DecidableEq

/-- `bundle_miner_ctx_t`. The flag the workers share is passed on from one to the next. -/
structure Ctx where
  bundleNormalizedMax : List ℤ
  security : ℕ
  essence : List ℤ
  index : UInt64
  startIndex : UInt64
  optimalIndex : UInt64
  count : ℕ
  miningThreshold : ℕ
  probability : ℚ

/-- A candidate that has been hashed, and the index that is recorded for it. -/
structure Trial where
  index : UInt64
  essence : List ℤ

/-! ## The hash of a candidate -/

/-- `pi` in `bundle_miner_probability_of_losing`. -/
def factor (v : ℤ) : ℚ := 1 - (13 - v : ℤ) / (13 - -13 + 1 : ℤ)

/-- `bundle_miner_probability_of_losing`. -/
def bundleMinerProbabilityOfLosing (normalizedHash : List ℤ) (security : ℕ) : ℚ :=
  (normalizedHash.take (security * normalizedFragmentLength)).foldl (fun p v =>
    if 0 < factor v then (if p = 0 then 1 else p) * factor v else p) 0

/-- `bundle_miner_normalized_bundle_max`. -/
def bundleMinerNormalizedBundleMax (lhs rhs : List ℤ) (length : ℕ) : List ℤ :=
  List.zipWith max (lhs.take length) (rhs.take length)

/-- `normalized_hash_is_secure` for the hash of a candidate. -/
def candidateIsSecure (security : ℕ) (candidate : List ℤ) : Bool :=
  normalizedHashIsSecure ((normalizeHash candidate).take (security * normalizedFragmentLength))

/-- The probability a worker computes for the hash of a candidate. -/
def candidateProbability (bundleNormalizedMax : List ℤ) (security : ℕ) (candidate : List ℤ) : ℚ :=
  bundleMinerProbabilityOfLosing
    (bundleMinerNormalizedBundleMax bundleNormalizedMax (normalizeHash candidate)
      (security * normalizedFragmentLength)) security

/-! ## A worker -/

section Worker

variable (kerl : List ℤ → List ℤ)

/-- The essence of a round: the index, written over the tag that is there. -/
def candidateEssence (ctx : Ctx) : List ℤ :=
  ctx.essence.take obsoleteTagOffset ++
    (longToTrits ctx.index.toInt64 (ctx.essence.drop obsoleteTagOffset)).1

/-- One round of `bundle_miner_mine_routine`, up to the next index, and whether the threshold has been
reached in it. -/
def mineRound (ctx : Ctx) : Ctx × Bool :=
  let numTrialsMiningThreshold := 3 ^ ctx.miningThreshold
  let essence := candidateEssence ctx
  let candidate := kerl essence
  let ctx := { ctx with essence }
  if candidateIsSecure ctx.security candidate then
    let probability := candidateProbability ctx.bundleNormalizedMax ctx.security candidate
    if probability < ctx.probability then
      ({ ctx with probability, optimalIndex := ctx.index },
        1 < numTrialsMiningThreshold && numTrialsMiningThreshold ≤ ⌊1 / probability⌋)
    else (ctx, false)
  else (ctx, false)

/-- `bundle_miner_mine_routine`: the flag afterwards, the context, and what has been hashed. -/
def bundleMinerMineRoutine : ℕ → Option Bool → Ctx → Option Bool × Ctx × List Trial
  | 0, found, ctx => (found, ctx, [])
  | rounds + 1, found, ctx =>
    if found = some true then (found, ctx, [])
    else
      let trial : Trial := ⟨ctx.index, candidateEssence ctx⟩
      let round := mineRound kerl ctx
      -- The flag is only there where the caller has one.
      if round.2 then (found.map fun _ => true, round.1, [trial])
      else
        let ctx := { round.1 with index := round.1.index + 1 }
        let rest := bundleMinerMineRoutine rounds found ctx
        (rest.1, rest.2.1, trial :: rest.2.2)

end Worker

/-! ## The miner -/

/-- `rounded_count`, in its 32 bits. -/
def roundedCount (count numCtxs : ℕ) : ℕ := (count + (numCtxs - count % numCtxs)) % 2 ^ 32

/-- What has been mined: `index`, and what the workers have left and hashed. -/
structure Mined where
  index : UInt64
  found : Option Bool
  workers : List (Ctx × List Trial)

/-- Everything that has been hashed. -/
def Mined.trials (mined : Mined) : List Trial := mined.workers.flatMap Prod.snd

/-- The context of worker `i` before it starts. -/
def startCtx (bundleNormalizedMax : List ℤ) (security : ℕ) (essence : List ℤ)
    (count miningThreshold numCtxs i : ℕ) : Ctx :=
  let start := (tritsToLong (essence.drop obsoleteTagOffset) numTritsObsoleteTag).toUInt64
  let startIndex := start + UInt64.ofNat (i * (roundedCount count numCtxs / numCtxs))
  { bundleNormalizedMax
    security
    essence
    index := startIndex
    startIndex
    optimalIndex := 0
    count := roundedCount count numCtxs / numCtxs
    miningThreshold := miningThreshold % 2 ^ 32
    probability := 1 }

/-- The threads, one after the other. -/
def runWorkers (kerl : List ℤ → List ℤ) (ctxs : List Ctx) (found : Option Bool) :
    Option Bool × List (Ctx × List Trial) :=
  ctxs.foldl (fun done ctx =>
    let worker := bundleMinerMineRoutine kerl ctx.count done.1 ctx
    (worker.1, done.2 ++ [worker.2])) (found, [])

/-- The loop that joins the threads: the lowest probability and its index. -/
def joinWorkers (ctxs : List Ctx) : ℚ × UInt64 :=
  ctxs.foldl (fun best ctx =>
    if ctx.probability < best.1 then (ctx.probability, ctx.optimalIndex) else best) (1, 0)

/-- `bundle_miner_mine`. Of `index` and `ctxs` it matters here whether they are there. -/
def bundleMinerMine (kerl : List ℤ → List ℤ) (bundleNormalizedMax : Option (List ℤ)) (security : ℕ)
    (essence : Option (List ℤ)) (count miningThreshold : ℕ) (index ctxs : Bool) (numCtxs : ℕ)
    (found : Option Bool) : Except Retcode Mined :=
  match bundleNormalizedMax, essence, index with
  | some bundleNormalizedMax, some essence, true =>
    if 3 < security ∨ essence.length % 243 ≠ 0 then .error .badParam
    else if !ctxs then .error .oom
    else
      let workers := runWorkers kerl ((List.range numCtxs).map
        (startCtx bundleNormalizedMax security essence count miningThreshold numCtxs)) found
      .ok ⟨(joinWorkers (workers.2.map Prod.fst)).2, workers.1, workers.2⟩
  | _, _, _ => .error .nullParam

end Mining

end Entangled
