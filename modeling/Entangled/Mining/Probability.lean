import Entangled.Mining.Miner
import Mathlib.Algebra.Order.BigOperators.GroupWithZero.List
/-!
# The probability of losing

One factor for every tryte of the greatest hash, and only the greatest trytes of all have a factor of
one. A secure hash has none of these, so together with a maximum that still has room somewhere the
probability is below one.
-/

namespace Entangled

namespace Mining

variable {l : List ℤ} {v : ℤ}

theorem factor_eq (v : ℤ) : factor v = (14 + v) / 27 := by
  rw [factor]
  push_cast
  ring

theorem factor_pos (h : InTryte v) : 0 < factor v := by
  rw [factor_eq]
  have hv : (-13 : ℚ) ≤ v := by exact_mod_cast h.1
  linarith

theorem factor_le_one (h : InTryte v) : factor v ≤ 1 := by
  rw [factor_eq]
  have hv : (v : ℚ) ≤ 13 := by exact_mod_cast h.2
  linarith

theorem factor_lt_one (h : v < 13) : factor v < 1 := by
  rw [factor_eq]
  have hv : (v : ℚ) < 13 := by exact_mod_cast h
  linarith

theorem factor_thirteen : factor 13 = 1 := by
  rw [factor_eq]
  norm_num

/-- Once the product has begun, zero does not come back. -/
theorem foldl_factor (h : ∀ v ∈ l, InTryte v) {p : ℚ} (hp : 0 < p) :
    l.foldl (fun p v => if 0 < factor v then (if p = 0 then 1 else p) * factor v else p) p =
      p * (l.map factor).prod := by
  induction l generalizing p with
  | nil => rw [List.foldl_nil, List.map_nil, List.prod_nil, mul_one]
  | cons v l ih =>
    obtain ⟨hv, hl⟩ := List.forall_mem_cons.mp h
    rw [List.foldl_cons, if_pos (factor_pos hv), if_neg hp.ne', ih hl (mul_pos hp (factor_pos hv)),
      List.map_cons, List.prod_cons, mul_assoc]

theorem bundleMinerProbabilityOfLosing_eq {security : ℕ} (h : ∀ v ∈ l, InTryte v)
    (hl : l.length = security * normalizedFragmentLength) (hne : l ≠ []) :
    bundleMinerProbabilityOfLosing l security = (l.map factor).prod := by
  rw [bundleMinerProbabilityOfLosing, ← hl, List.take_length]
  cases l with
  | nil => exact absurd rfl hne
  | cons v l =>
    obtain ⟨hv, hrest⟩ := List.forall_mem_cons.mp h
    rw [List.foldl_cons, if_pos (factor_pos hv), if_pos rfl, one_mul,
      foldl_factor hrest (factor_pos hv), List.map_cons, List.prod_cons]

theorem prod_factor_le_one (h : ∀ v ∈ l, InTryte v) :
    0 < (l.map factor).prod ∧ (l.map factor).prod ≤ 1 := by
  induction l with
  | nil => exact ⟨zero_lt_one, le_rfl⟩
  | cons v l ih =>
    obtain ⟨hv, hl⟩ := List.forall_mem_cons.mp h
    obtain ⟨hpos, hle⟩ := ih hl
    rw [List.map_cons, List.prod_cons]
    exact ⟨mul_pos (factor_pos hv) hpos, mul_le_one₀ (factor_le_one hv) hpos.le hle⟩

/-- **A tryte below the greatest** makes the product less than one. -/
theorem prod_factor_lt_one (h : ∀ v ∈ l, InTryte v) (hlt : ∃ v ∈ l, v < 13) :
    (l.map factor).prod < 1 := by
  obtain ⟨v, hv, hvlt⟩ := hlt
  obtain ⟨s, t, rfl⟩ := List.append_of_mem hv
  have hs := prod_factor_le_one fun u hu => h u (List.mem_append_left _ hu)
  have ht := prod_factor_le_one fun u hu =>
    h u (List.mem_append_right s (List.mem_cons_of_mem v hu))
  have hpos := factor_pos (h v hv)
  rw [List.map_append, List.prod_append, List.map_cons, List.prod_cons]
  calc (s.map factor).prod * (factor v * (t.map factor).prod)
      ≤ 1 * (factor v * 1) := by
        refine mul_le_mul hs.2 (mul_le_mul_of_nonneg_left ht.2 hpos.le) ?_ zero_le_one
        exact (mul_pos hpos ht.1).le
    _ < 1 := by rw [one_mul, mul_one]; exact factor_lt_one hvlt

/-! ## The probability of a candidate -/

section Candidate

variable {bundleNormalizedMax candidate : List ℤ} {security : ℕ}

/-- The greatest hash has trytes, as many as the security asks for. -/
theorem bundleMinerNormalizedBundleMax_spec (hs : security ≤ 3)
    (hl : security * normalizedFragmentLength ≤ bundleNormalizedMax.length)
    (hmax : ∀ v ∈ bundleNormalizedMax, InTryte v) (hc : Ternary.Trits candidate) :
    (bundleMinerNormalizedBundleMax bundleNormalizedMax (normalizeHash candidate)
        (security * normalizedFragmentLength)).length = security * normalizedFragmentLength ∧
      ∀ v ∈ bundleMinerNormalizedBundleMax bundleNormalizedMax (normalizeHash candidate)
        (security * normalizedFragmentLength), InTryte v := by
  obtain ⟨hlen, hrange⟩ := normalizeHash_spec hc
  have hn : security * normalizedFragmentLength ≤ 81 := by
    rw [normalizedFragmentLength]
    omega
  refine ⟨?_, fun v hv => ?_⟩
  · rw [bundleMinerNormalizedBundleMax, List.length_zipWith, List.length_take, List.length_take, hlen]
    omega
  · obtain ⟨i, hi, rfl⟩ := List.mem_iff_getElem.mp hv
    rw [bundleMinerNormalizedBundleMax, List.length_zipWith, List.length_take,
      List.length_take] at hi
    simp only [bundleMinerNormalizedBundleMax, List.getElem_zipWith, List.getElem_take]
    have ha := hmax _ (List.getElem_mem (show i < bundleNormalizedMax.length by omega))
    have hb := hrange _ (List.getElem_mem (show i < (normalizeHash candidate).length by omega))
    exact ⟨le_max_of_le_left ha.1, max_le ha.2 hb.2⟩

/-- **A secure hash** has a probability below one, where the maximum has room left. -/
theorem candidateProbability_lt_one (hs : security ≤ 3)
    (hl : security * normalizedFragmentLength ≤ bundleNormalizedMax.length)
    (hmax : ∀ v ∈ bundleNormalizedMax, InTryte v) (hc : Ternary.Trits candidate)
    (hroom : security = 0 ∨
      ∃ v ∈ bundleNormalizedMax.take (security * normalizedFragmentLength), v < 13)
    (hsecure : candidateIsSecure security candidate = true) :
    candidateProbability bundleNormalizedMax security candidate < 1 := by
  obtain ⟨hlen, hrange⟩ := bundleMinerNormalizedBundleMax_spec hs hl hmax hc
  rcases Nat.eq_zero_or_pos security with rfl | hpos
  · rw [candidateProbability, bundleMinerProbabilityOfLosing, Nat.zero_mul, List.take_zero]
    exact zero_lt_one
  obtain ⟨v, hv, hlt⟩ := hroom.resolve_left hpos.ne'
  rw [candidateProbability, bundleMinerProbabilityOfLosing_eq hrange hlen]
  · refine prod_factor_lt_one hrange ?_
    obtain ⟨i, hi, rfl⟩ := List.mem_iff_getElem.mp hv
    have hi' := hi
    rw [List.length_take] at hi'
    have hcandidate : i < ((normalizeHash candidate).take
        (security * normalizedFragmentLength)).length := by
      rw [List.length_take, (normalizeHash_spec hc).1, normalizedFragmentLength] at *
      omega
    refine ⟨max (bundleNormalizedMax.take (security * normalizedFragmentLength))[i]
      ((normalizeHash candidate).take (security * normalizedFragmentLength))[i],
      List.mem_iff_getElem.mpr ⟨i, by rw [hlen]; omega, ?_⟩, ?_⟩
    · simp only [bundleMinerNormalizedBundleMax, List.getElem_zipWith]
    · -- A secure hash has no greatest tryte.
      have hmem := List.getElem_mem hcandidate
      have hne := (List.all_eq_true.mp hsecure) _ hmem
      have hle := ((normalizeHash_spec hc).2 _ (List.mem_of_mem_take hmem)).2
      have hne' := bne_iff_ne.mp hne
      exact max_lt hlt (by omega)
  · rw [ne_eq, ← List.length_eq_zero_iff, hlen, normalizedFragmentLength]
    omega

/-- **With no room left** every candidate loses for certain. -/
theorem candidateProbability_eq_one (hs : security ≤ 3) (hpos : 0 < security)
    (hl : security * normalizedFragmentLength ≤ bundleNormalizedMax.length)
    (hmax : ∀ v ∈ bundleNormalizedMax, InTryte v) (hc : Ternary.Trits candidate)
    (hfull : ∀ v ∈ bundleNormalizedMax.take (security * normalizedFragmentLength), ¬ v < 13) :
    candidateProbability bundleNormalizedMax security candidate = 1 := by
  obtain ⟨hlen, hrange⟩ := bundleMinerNormalizedBundleMax_spec hs hl hmax hc
  rw [candidateProbability, bundleMinerProbabilityOfLosing_eq hrange hlen]
  · refine List.prod_eq_one fun p hp => ?_
    obtain ⟨v, hv, rfl⟩ := List.mem_map.mp hp
    have hge : 13 ≤ v := by
      obtain ⟨i, hi, rfl⟩ := List.mem_iff_getElem.mp hv
      simp only [bundleMinerNormalizedBundleMax, List.getElem_zipWith]
      exact le_max_of_le_left (not_lt.mp (hfull _ (List.getElem_mem _)))
    rw [le_antisymm (hrange v hv).2 hge, factor_thirteen]
  · rw [ne_eq, ← List.length_eq_zero_iff, hlen, normalizedFragmentLength]
    omega

end Candidate

end Mining

end Entangled
