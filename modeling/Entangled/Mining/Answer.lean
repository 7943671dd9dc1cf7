import Entangled.Mining.Best
import Entangled.Mining.Probability
/-!
# When the miner's answer is the best one

What a call of `bundle_miner_mine` is for, and when it does that. A number written over a longer one
leaves trits of it, a number of rounds that does not fit is cut off, and a maximum without room makes
every candidate as bad as finding none.
-/

namespace Entangled

namespace Mining

open Ternary Trinary

/-- Kerl as a function from the trits of an essence to those of a hash. -/
structure Kerl where
  hash : List ℤ → List ℤ
  trits_hash : ∀ essence, Trits (hash essence)

/-- A call of `bundle_miner_mine` that it takes on, with the threshold zero. The greatest hash has
trytes, and the flag, where there is one, is not set yet. -/
structure Job where
  bundleNormalizedMax : List ℤ
  security : ℕ
  essence : List ℤ
  count : ℕ
  numCtxs : ℕ
  found : Option Bool
  security_le : security ≤ 3
  length_max : security * normalizedFragmentLength ≤ bundleNormalizedMax.length
  inTryte_max : ∀ v ∈ bundleNormalizedMax, InTryte v
  length_essence : 405 ≤ essence.length
  blocks_essence : essence.length % 243 = 0
  numCtxs_pos : 0 < numCtxs
  not_found : found ≠ some true

namespace Job

variable (kerl : Kerl) (job : Job)

/-- What it comes to. -/
def mine : Except Retcode Mined :=
  bundleMinerMine kerl.hash (some job.bundleNormalizedMax) job.security (some job.essence) job.count
    0 true true job.numCtxs job.found

/-- The number of the obsolete tag. -/
def start : UInt64 :=
  (tritsToLong (job.essence.drop obsoleteTagOffset) numTritsObsoleteTag).toUInt64

/-- How many numbers a worker tries. -/
def share : ℕ := roundedCount job.count job.numCtxs / job.numCtxs

/-- The first number worker `i` tries. -/
def first (i : ℕ) : UInt64 := job.start + UInt64.ofNat (i * job.share)

/-- The numbers that are to be searched. -/
def interval : List UInt64 :=
  (List.range (roundedCount job.count job.numCtxs)).map fun k => job.start + UInt64.ofNat k

/-- The essence with the 81 trits of the number as its obsolete tag. -/
def essenceOf (v : UInt64) : List ℤ :=
  putTag job.essence (digits numTritsObsoleteTag v.toInt64.toInt)

/-- The essence with the number has a secure hash. -/
def Secure (v : UInt64) : Prop :=
  candidateIsSecure job.security (kerl.hash (job.essenceOf v)) = true

/-- The probability of losing with the number. -/
def losing (v : UInt64) : ℚ :=
  candidateProbability job.bundleNormalizedMax job.security (kerl.hash (job.essenceOf v))

/-- The answer is real and best. -/
structure RealAndBest (mined : Mined) : Prop where
  carries : ∀ trial ∈ mined.trials, trial.essence = job.essenceOf trial.index
  covers : mined.trials.map Trial.index = job.interval
  best : (∃ v ∈ job.interval, job.Secure kerl v) →
    mined.index ∈ job.interval ∧ job.Secure kerl mined.index ∧
      ∀ v ∈ job.interval, job.Secure kerl v → job.losing kerl mined.index ≤ job.losing kerl v

/-- When it is. The multiple of the number of contexts that comes after `count` fits into 32 bits, or
what is cut off is a multiple as well. For every worker that tries anything, the tag that is there
ends where its first number does, and none of its numbers but the last leaves something over. There is
room in the maximum, or no security is asked for, or nothing but zero is searched. -/
structure Sound : Prop where
  rounds : job.numCtxs ∣ 2 ^ 32 * (job.numCtxs * (job.count / job.numCtxs + 1) / 2 ^ 32)
  tags : 0 < job.share → ∀ i < job.numCtxs,
    (obsoleteTag job.essence).drop (reach (job.first i).toInt64) =
        List.replicate (81 - reach (job.first i).toInt64) 0 ∧
      ∀ k, k + 1 < job.share → ¬ Shrinks ((job.first i).toInt64 + Int64.ofNat k)
  room : job.security = 0 ∨
    (∃ v ∈ job.bundleNormalizedMax.take (job.security * normalizedFragmentLength), v < 13) ∨
    ∀ v ∈ job.interval, v = 0

/-! ## What a call comes to -/

/-- The context of worker `i`. -/
def ctx (i : ℕ) : Ctx :=
  startCtx job.bundleNormalizedMax job.security job.essence job.count 0 job.numCtxs i

/-- The workers, each with what it has tried. -/
def workers : List (Ctx × List Trial) :=
  (List.range job.numCtxs).map fun i =>
    (bundleMinerMineRoutine kerl.hash job.share job.found (job.ctx i)).2

/-- The numbers a worker tries, and the essences that are hashed for them. -/
def trials (i : ℕ) : List Trial :=
  (List.range job.share).map fun k =>
    ⟨job.first i + UInt64.ofNat k,
      putTag job.essence (tagAt (job.first i).toInt64 (obsoleteTag job.essence) k)⟩

theorem routine_eq (i : ℕ) :
    (bundleMinerMineRoutine kerl.hash job.share job.found (job.ctx i)).1 = job.found ∧
      (bundleMinerMineRoutine kerl.hash job.share job.found (job.ctx i)).2.2 = job.trials i :=
  bundleMinerMineRoutine_trials kerl.hash job.share job.not_found rfl
    (putTag_obsoleteTag job.essence).symm (by have := job.length_essence; omega)
    (length_obsoleteTag job.length_essence)

theorem runWorkers_eq :
    runWorkers kerl.hash ((List.range job.numCtxs).map job.ctx) job.found =
      (job.found, job.workers kerl) := by
  have hfold : ∀ (l : List ℕ) (done : List (Ctx × List Trial)),
      (l.map job.ctx).foldl (fun done ctx =>
          ((bundleMinerMineRoutine kerl.hash ctx.count done.1 ctx).1,
            done.2 ++ [(bundleMinerMineRoutine kerl.hash ctx.count done.1 ctx).2])) (job.found, done) =
        (job.found, done ++ l.map fun i =>
          (bundleMinerMineRoutine kerl.hash job.share job.found (job.ctx i)).2) := by
    intro l
    induction l with
    | nil =>
      intro done
      rw [List.map_nil, List.map_nil, List.append_nil, List.foldl_nil]
    | cons i l ih =>
      intro done
      have hflag := (job.routine_eq kerl i).1
      have hcount : (job.ctx i).count = job.share := rfl
      have hnext := ih
        (done ++ [(bundleMinerMineRoutine kerl.hash job.share job.found (job.ctx i)).2])
      rw [List.append_assoc, List.singleton_append] at hnext
      rw [List.map_cons, List.foldl_cons, List.map_cons]
      dsimp only
      rw [hcount, hflag]
      exact hnext
  exact hfold _ []

theorem mine_eq :
    job.mine kerl = .ok ⟨(joinWorkers ((job.workers kerl).map Prod.fst)).2, job.found,
      job.workers kerl⟩ := by
  have hguard : ¬ (3 < job.security ∨ job.essence.length % 243 ≠ 0) := by
    have hs := job.security_le
    have hb := job.blocks_essence
    omega
  rw [mine, bundleMinerMine]
  dsimp only
  rw [if_neg hguard, if_neg (by decide)]
  have hrun := job.runWorkers_eq kerl
  unfold ctx at hrun
  rw [hrun]

theorem trials_workers :
    (job.workers kerl).flatMap Prod.snd = (List.range job.numCtxs).flatMap job.trials := by
  rw [workers, List.flatMap_map]
  exact List.flatMap_congr fun i _ => (job.routine_eq kerl i).2

/-! ## The numbers -/

theorem flatMap_range_mul {α : Type} (f : ℕ → α) (n c : ℕ) :
    (List.range n).flatMap (fun i => (List.range c).map fun k => f (i * c + k)) =
      (List.range (n * c)).map f := by
  induction n with
  | zero => rw [Nat.zero_mul, List.range_zero, List.flatMap_nil, List.map_nil]
  | succ n ih =>
    rw [List.range_succ, List.flatMap_append, ih, List.flatMap_singleton, Nat.succ_mul,
      List.range_add, List.map_append, List.map_map]
    rfl

theorem map_index_trials :
    ((List.range job.numCtxs).flatMap job.trials).map Trial.index =
      (List.range (job.numCtxs * job.share)).map fun k => job.start + UInt64.ofNat k := by
  rw [List.map_flatMap, ← flatMap_range_mul]
  refine List.flatMap_congr fun i _ => ?_
  rw [trials, List.map_map]
  refine List.map_congr_left fun k _ => ?_
  rw [Function.comp_apply, first, UInt64.ofNat_add, UInt64.add_assoc]

/-- **The workers' numbers are the interval** exactly where the rounds are shared out evenly. -/
theorem map_index_trials_iff :
    ((List.range job.numCtxs).flatMap job.trials).map Trial.index = job.interval ↔
      job.numCtxs ∣ 2 ^ 32 * (job.numCtxs * (job.count / job.numCtxs + 1) / 2 ^ 32) := by
  have hpos := job.numCtxs_pos
  have hmultiple : job.count + (job.numCtxs - job.count % job.numCtxs) =
      job.numCtxs * (job.count / job.numCtxs + 1) := by
    have hdiv := Nat.div_add_mod job.count job.numCtxs
    have hlt := Nat.mod_lt job.count hpos
    rw [Nat.mul_add, Nat.mul_one]
    omega
  have hcut := Nat.mod_add_div (job.numCtxs * (job.count / job.numCtxs + 1)) (2 ^ 32)
  have hdvd : job.numCtxs ∣ roundedCount job.count job.numCtxs ↔
      job.numCtxs ∣ 2 ^ 32 * (job.numCtxs * (job.count / job.numCtxs + 1) / 2 ^ 32) := by
    rw [roundedCount, hmultiple]
    have hwhole : job.numCtxs ∣ job.numCtxs * (job.count / job.numCtxs + 1) := Nat.dvd_mul_right _ _
    rw [← hcut] at hwhole
    exact ⟨fun h => (Nat.dvd_add_right h).mp hwhole, fun h => (Nat.dvd_add_left h).mp hwhole⟩
  rw [← hdvd, map_index_trials, interval]
  constructor
  · intro h
    have hlen := congrArg List.length h
    rw [List.length_map, List.length_map, List.length_range, List.length_range] at hlen
    exact ⟨job.share, hlen.symm⟩
  · intro h
    rw [share, Nat.mul_div_cancel' h]

/-- **Every candidate is its number's** exactly where no worker finds anything left over. -/
theorem carries_iff :
    (∀ trial ∈ (List.range job.numCtxs).flatMap job.trials,
        trial.essence = job.essenceOf trial.index) ↔
      (0 < job.share → ∀ i < job.numCtxs,
        (obsoleteTag job.essence).drop (reach (job.first i).toInt64) =
            List.replicate (81 - reach (job.first i).toInt64) 0 ∧
          ∀ k, k + 1 < job.share → ¬ Shrinks ((job.first i).toInt64 + Int64.ofNat k)) := by
  have hworker : ∀ i, (∀ k < job.share, tagAt (job.first i).toInt64 (obsoleteTag job.essence) k =
      digits 81 ((job.first i).toInt64 + Int64.ofNat k).toInt) ↔ _ := fun i =>
    tagAt_eq_digits_iff job.share (job.first i).toInt64 (length_obsoleteTag job.length_essence)
  constructor
  · intro h hpos i hi
    refine (hworker i).mp (fun k hk => ?_) hpos
    have htrial := h ⟨job.first i + UInt64.ofNat k, _⟩ (List.mem_flatMap.mpr
      ⟨i, List.mem_range.mpr hi, List.mem_map.mpr ⟨k, List.mem_range.mpr hk, rfl⟩⟩)
    exact putTag_inj.mp htrial
  · intro h trial htrial
    obtain ⟨i, hi, hmem⟩ := List.mem_flatMap.mp htrial
    obtain ⟨k, hk, rfl⟩ := List.mem_map.mp hmem
    have hlt := List.mem_range.mp hk
    have htag := (hworker i).mpr (fun hpos => h hpos i (List.mem_range.mp hi)) k hlt
    exact putTag_inj.mpr htag

/-! ## The answer -/

/-- **Where every candidate is its number's**, what has been kept is the lowest of all. -/
theorem kept_mine
    (hcarries : ∀ trial ∈ (List.range job.numCtxs).flatMap job.trials,
      trial.essence = job.essenceOf trial.index) :
    Kept kerl.hash job.bundleNormalizedMax job.security job.essenceOf
      (((List.range job.numCtxs).flatMap job.trials).map Trial.index)
      (joinWorkers ((job.workers kerl).map Prod.fst)).1
      (joinWorkers ((job.workers kerl).map Prod.fst)).2 := by
  have hworkers : ∀ worker ∈ job.workers kerl, Kept kerl.hash job.bundleNormalizedMax job.security
      job.essenceOf (worker.2.map Trial.index) worker.1.probability worker.1.optimalIndex := by
    intro worker hworker
    obtain ⟨i, hi, rfl⟩ := List.mem_map.mp hworker
    have hstart : Kept kerl.hash job.bundleNormalizedMax job.security job.essenceOf []
        (job.ctx i).probability (job.ctx i).optimalIndex := Lowest.nil
    have hrun := kept_bundleMinerMineRoutine job.share job.found hstart ⟨rfl, rfl⟩ (by
      intro trial ht
      rw [(job.routine_eq kerl i).2] at ht
      exact hcarries trial (List.mem_flatMap.mpr ⟨i, hi, ht⟩))
    rwa [List.nil_append] at hrun
  have hjoin := kept_joinWorkers hworkers
  rwa [job.trials_workers kerl] at hjoin

end Job

/-! ## Hashes of one's own -/

theorem trits_nullHash (_ : List ℤ) : Trits (List.replicate 243 0) := trits_replicate 243

/-- A hash with no greatest tryte, whatever the essence is. -/
def zeroKerl : Kerl where
  hash _ := List.replicate 243 0
  trits_hash := trits_nullHash

/-- One essence has a secure hash and no other one. -/
def onlyKerl (essence : List ℤ) : Kerl where
  hash e := if e = essence then List.replicate 243 0 else List.replicate 243 1
  trits_hash e := by
    split_ifs
    · exact trits_replicate 243
    · intro t ht
      rw [List.eq_of_mem_replicate ht]
      exact .inr (.inr rfl)

theorem hash_onlyKerl_self (essence : List ℤ) :
    (onlyKerl essence).hash essence = List.replicate 243 0 := if_pos rfl

theorem hash_onlyKerl_of_ne {essence e : List ℤ} (h : e ≠ essence) :
    (onlyKerl essence).hash e = List.replicate 243 1 := if_neg h

theorem candidateIsSecure_zero (security : ℕ) :
    candidateIsSecure security (List.replicate 243 0) = true := by
  have hzero : normalizeHash (List.replicate 243 0) = List.replicate 81 0 := by decide +kernel
  rw [candidateIsSecure, hzero, normalizedHashIsSecure, List.all_eq_true]
  intro v hv
  rw [List.eq_of_mem_replicate (List.mem_of_mem_take hv)]
  rfl

theorem candidateIsSecure_one {security : ℕ} (h : 0 < security) :
    candidateIsSecure security (List.replicate 243 1) = false := by
  -- What the first third still has too much of is taken from its first trytes, not from this one.
  have hlast : (normalizeHash (List.replicate 243 1))[26]? = some 13 := by decide +kernel
  have hmem : (13 : ℤ) ∈ (normalizeHash (List.replicate 243 1)).take
      (security * normalizedFragmentLength) := by
    refine List.mem_of_getElem? (i := 26) ?_
    rw [List.getElem?_take_of_lt (by rw [normalizedFragmentLength]; omega), hlast]
  rw [candidateIsSecure, normalizedHashIsSecure, List.all_eq_false]
  exact ⟨13, hmem, by decide⟩

namespace Job

variable {job : Job}

theorem essenceOf_inj {v w : UInt64} (h : job.essenceOf v = job.essenceOf w) : v = w := by
  have hbound : ∀ u : UInt64, 2 * |u.toInt64.toInt| < 3 ^ numTritsObsoleteTag := fun u =>
    (two_mul_abs_lt_reach _).trans_le
      (pow_le_pow_right₀ (by decide) ((reach_le _).trans (by decide)))
  have hval := congrArg value (putTag_inj.mp h)
  rw [value_digits (hbound v), value_digits (hbound w)] at hval
  rw [← UInt64.toUInt64_toInt64 v, Int64.toInt_inj.mp hval, UInt64.toUInt64_toInt64]

/-- Where there is room, a secure hash is better than none. -/
theorem losing_lt_one (kerl : Kerl)
    (hroom : job.security = 0 ∨
      ∃ v ∈ job.bundleNormalizedMax.take (job.security * normalizedFragmentLength), v < 13)
    {v : UInt64} (hv : job.Secure kerl v) : job.losing kerl v < 1 :=
  candidateProbability_lt_one job.security_le job.length_max job.inTryte_max (kerl.trits_hash _) hroom
    hv

/-- **Sound calls** have the best answer, whatever Kerl is. -/
theorem Sound.realAndBest (h : job.Sound) (kerl : Kerl) :
    ∃ mined, job.mine kerl = .ok mined ∧ job.RealAndBest kerl mined := by
  have hcarries := job.carries_iff.mpr h.tags
  have hcovers := job.map_index_trials_iff.mpr h.rounds
  have hkept := job.kept_mine kerl hcarries
  rw [hcovers] at hkept
  refine ⟨_, job.mine_eq kerl, ?_, ?_, fun hex => ?_⟩
  · rw [Mined.trials, job.trials_workers kerl]
    exact hcarries
  · rw [Mined.trials, job.trials_workers kerl]
    exact hcovers
  · rcases or_assoc.mpr h.room with hroom | hzero
    · exact hkept.best (fun v _ hv => losing_lt_one kerl hroom hv) hex
    · -- Nothing but zero is searched, and zero is also what is returned for nothing.
      have hindex : (joinWorkers ((job.workers kerl).map Prod.fst)).2 = 0 := by
        rcases hkept.found with ⟨-, hnone⟩ | ⟨-, hmem, -⟩
        · exact hnone
        · exact hzero _ hmem
      obtain ⟨v, hv, hsecure⟩ := hex
      obtain rfl := hzero v hv
      dsimp only
      rw [hindex]
      refine ⟨hv, hsecure, fun w hw _ => ?_⟩
      rw [hzero w hw]

/-- With no room left, zero is returned. -/
theorem index_eq_zero (kerl : Kerl)
    (hcarries : ∀ trial ∈ (List.range job.numCtxs).flatMap job.trials,
      trial.essence = job.essenceOf trial.index)
    (hpos : 0 < job.security)
    (hfull : ∀ v ∈ job.bundleNormalizedMax.take (job.security * normalizedFragmentLength),
      ¬ v < 13) :
    (joinWorkers ((job.workers kerl).map Prod.fst)).2 = 0 :=
  (job.kept_mine kerl hcarries).eq_start fun _ _ _ =>
    (candidateProbability_eq_one job.security_le hpos job.length_max job.inTryte_max
      (kerl.trits_hash _) hfull).ge

/-- **The miner's answer** is real and best for every Kerl exactly where the call is sound. -/
theorem realAndBest_iff (job : Job) :
    (∀ kerl, ∃ mined, job.mine kerl = .ok mined ∧ job.RealAndBest kerl mined) ↔ job.Sound := by
  constructor
  · intro h
    obtain ⟨mined, hmined, hcarries, hcovers, -⟩ := h zeroKerl
    obtain rfl := Except.ok.inj ((job.mine_eq zeroKerl).symm.trans hmined)
    rw [Mined.trials, job.trials_workers zeroKerl] at hcarries hcovers
    refine ⟨job.map_index_trials_iff.mp hcovers, job.carries_iff.mp hcarries, ?_⟩
    by_contra hnot
    obtain ⟨hsecurity, hrest⟩ := not_or.mp hnot
    obtain ⟨hfull, hinterval⟩ := not_or.mp hrest
    obtain ⟨v, hv⟩ := not_forall.mp hinterval
    obtain ⟨hmem, hne⟩ := Classical.not_imp.mp hv
    -- Of all essences only the one with `v` has a secure hash now, and still zero is returned.
    obtain ⟨mined, hmined, -, -, hbest⟩ := h (onlyKerl (job.essenceOf v))
    obtain rfl := Except.ok.inj ((job.mine_eq _).symm.trans hmined)
    have hpos := Nat.pos_of_ne_zero hsecurity
    have hsecure : job.Secure (onlyKerl (job.essenceOf v)) v := by
      rw [Secure, hash_onlyKerl_self]
      exact candidateIsSecure_zero job.security
    obtain ⟨-, hzero, -⟩ := hbest ⟨v, hmem, hsecure⟩
    dsimp only at hzero
    rw [index_eq_zero _ hcarries hpos fun u hu hlt => hfull ⟨u, hu, hlt⟩, Secure,
      hash_onlyKerl_of_ne fun heq => hne (essenceOf_inj heq).symm, candidateIsSecure_one hpos] at hzero
    exact Bool.false_ne_true hzero
  · intro h kerl
    exact h.realAndBest kerl

/-- The tag is -14, and two rounds are shared out to one worker. -/
def minusFourteen : Job where
  bundleNormalizedMax := List.replicate 81 0
  security := 1
  essence := putTag (List.replicate 486 0) (digits 81 (-14))
  count := 1
  numCtxs := 1
  found := none
  security_le := by decide
  length_max := by decide
  inTryte_max := fun v hv => List.eq_of_mem_replicate hv ▸ ⟨by decide, by decide⟩
  length_essence := by decide +kernel
  blocks_essence := by decide +kernel
  numCtxs_pos := Nat.one_pos
  not_found := by decide

/-- **The essence that is hashed for -13 carries -40**: the fourth trit of -14 is left over. -/
theorem mine_minusFourteen : ¬ ∀ kerl, ∃ mined, minusFourteen.mine kerl = .ok mined ∧
    minusFourteen.RealAndBest kerl mined := by
  intro h
  obtain ⟨mined, hmined, hcarries, -⟩ := h zeroKerl
  obtain rfl := Except.ok.inj ((minusFourteen.mine_eq zeroKerl).symm.trans hmined)
  rw [Mined.trials, minusFourteen.trials_workers zeroKerl] at hcarries
  have hshare : minusFourteen.share = 2 := by decide +kernel
  have hfirst : (minusFourteen.first 0).toInt64 + Int64.ofNat 0 = -14 := by decide +kernel
  have htags := minusFourteen.carries_iff.mp hcarries (hshare ▸ two_pos) 0 Nat.one_pos
  refine htags.2 0 (hshare ▸ Nat.one_lt_two) ⟨3, le_rfl, ?_⟩
  rw [hfirst]
  decide

end Job

end Mining

end Entangled
