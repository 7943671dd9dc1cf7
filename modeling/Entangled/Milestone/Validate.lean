import Entangled.Tangle.Bundle
import Entangled.Signing.Sign
import Mathlib.Data.Nat.Bitwise
/-!
# Validating a milestone

The part of `milestone_tracker.c` that decides whether a candidate is a milestone: the bundle has to
be valid, to have the structure of a milestone, and its signature has to lead to the coordinator. The
address that the signature fragments are recovered to is folded with the siblings in the fragment
behind them, along the bits of the index that the candidate says it has.

The index is read from the obsolete tag, which is longer than a word.
-/

namespace Entangled

open Prog Trinary Ternary

variable {Hash : Type} [DecidableEq Hash] [HashBytes Hash]

/-- `iota_tangle_milestone_exist`. -/
def Tangle.milestoneExist (hash : Hash) : TangleM Hash Bool := do
  attempt .milestoneLoad
  gets fun t => t.milestones.rows.any fun r => decide (r.milestone.hash = hash)

/-- `iss_merkle_root`: the hash and the sponge. -/
def issMerkleRoot {σ : Type} (K : Kerl σ) (hash siblings : List ℤ)
    (siblingsNumber leafIndex : ℕ) (s : σ) : List ℤ × σ :=
  (List.range siblingsNumber).foldl (fun p i =>
    let sibling := block 243 siblings i
    let s :=
      if leafIndex.testBit i then K.absorb (K.absorb p.2 sibling) p.1
      else K.absorb (K.absorb p.2 p.1) sibling
    ((K.squeeze s).1, K.init)) (hash, s)

/-- What of the configuration is used here. -/
structure Coordinator where
  securityLevel : ℕ
  depth : ℕ
  maxMilestoneIndex : ℕ
  address : List FlexTrit

/-- `milestone_status_t`. -/
inductive MilestoneStatus
  | invalid
  | incomplete
  | existing
  | valid
  deriving DecidableEq, Repr

namespace Coordinator

section Tracker

variable (E : Encoding) (trits : Hash → {ts : List ℤ // ts.length = 243 ∧ Trits ts})
variable {σ : Type} (K : Kerl σ)

/-- `flex_trits_to_trits`, of `n` flex trits into an array of as many trits. -/
def toTrits (n : ℕ) (flexTrits : List FlexTrit) : List ℤ :=
  (flexTritsToTrits E (List.replicate n 0) n flexTrits n n).1

/-- `iota_milestone_tracker_get_milestone_index`. -/
def getMilestoneIndex (tx : Transaction Hash) : ℕ :=
  (tritsToLong (toTrits E 81 tx.obsoleteTag) 81).toUInt64.toNat

/-- `is_milestone_bundle_structure_valid`. -/
def isMilestoneBundleStructureValid (bundle : List (Transaction Hash)) (candidate : Milestone Hash)
    (securityLevel : ℕ) : Bool :=
  match bundle[0]?, bundle[securityLevel]? with
  | some tx, some head =>
    decide (tx.hash = candidate.hash) && (List.range securityLevel).all fun i =>
      match bundle[i]? with
      | none => false
      | some tx => decide (tx.branch = head.trunk)
  | _, _ => false

/-- `normalize_flex_hash_to_trits`. -/
def normalizeFlexHashToTrits (hash : List FlexTrit) : List ℤ :=
  normalizeHashToTrits (toTrits E 243 hash) (List.replicate 243 0)

/-- The loop of `validate_coordinator`, from fragment `i` on: the digests and the sponge. -/
def digestLoop (signedHash : List ℤ) : ℕ → List (Transaction Hash) → List ℤ × σ → List ℤ × σ
  | _, [], p => p
  | i, tx :: rest, p =>
    let d := issKerlSigDigest K (signedHash.drop (81 * i)) (toTrits E 6561 tx.signature) 6561 p.2
    digestLoop signedHash (i + 1) rest (p.1 ++ d.1, d.2)

/-- `validate_coordinator`, nothing where it reads past an array: `signed_hash` holds the trytes of
three fragments, and `siblings_trits` 27 siblings. -/
def validateCoordinator (conf : Coordinator) (candidate : Milestone Hash)
    (bundle : List (Transaction Hash)) : Option Bool :=
  match bundle[conf.securityLevel]? with
  | none => none
  | some head =>
    if 3 < conf.securityLevel ∨ 27 < conf.depth then none
    else
      let siblingsTrits := toTrits E 6561 head.signature
      let signedHash := normalizeFlexHashToTrits E (pack E (trits head.hash).1)
      let digest := digestLoop E K signedHash 0 (bundle.take conf.securityLevel) ([], K.init)
      let root := issKerlAddress K digest.1 (conf.securityLevel * 243) digest.2
      let root := issMerkleRoot K root.1 siblingsTrits conf.depth candidate.index root.2
      let coo := (flexTritsFromTrits E (List.replicate (E.numFlexTritsForTrits 243) 0) 243 root.1
        243 243).1
      some (decide (coo = conf.address))

/-- `iota_milestone_tracker_validate_milestone`, of a tracker at these indexes. -/
def validateMilestone (conf : Coordinator) (sponge : Sponge Hash)
    (latestSolidMilestoneIndex latestMilestoneIndex : ℕ) (candidate : Milestone Hash) :
    TangleM Hash MilestoneStatus := do
  if conf.maxMilestoneIndex ≤ candidate.index then pure .invalid
  else if (candidate.index ≤ latestSolidMilestoneIndex ∧ latestSolidMilestoneIndex ≠ 0) ∨
      (candidate.index = latestMilestoneIndex ∧ latestMilestoneIndex ≠ 0) then pure .existing
  else do
    let exist ← Tangle.milestoneExist candidate.hash
    if exist = true then pure .existing
    else do
      let r ← Tangle.bundleValidatorValidate sponge candidate.hash
      if r.2 = .incomplete then pure .incomplete
      else if r.2 = .valid then
        if isMilestoneBundleStructureValid r.1 candidate conf.securityLevel = false then
          pure .invalid
        else
          match validateCoordinator E trits K conf candidate r.1 with
          | none => fail .undefinedRead
          | some true => pure .valid
          | some false => pure .invalid
      else pure .invalid

end Tracker

/-! ## What is computed from the signature -/

section Scheme

variable {E : Encoding} {σ : Type} (K : Kerl σ)

/-- The hash of two hashes. -/
def pairHash (left right : List ℤ) : List ℤ :=
  (K.squeeze (K.absorb (K.absorb K.init left) right)).1

/-- **The fold along the bits** of an index, from the lowest up. -/
def foldAlong (siblings : List ℤ) (leafIndex n : ℕ) (hash : List ℤ) : List ℤ :=
  (List.range n).foldl (fun hash i =>
    if leafIndex.testBit i then pairHash K (block 243 siblings i) hash
    else pairHash K hash (block 243 siblings i)) hash

/-- The digest of a signature fragment: each chunk is hashed as often as its tryte is above -13. -/
def fragmentDigest (trytes : ℕ → ℤ) (fragment : List ℤ) : List ℤ :=
  K.hash ((mapBlocks 243 (fun j => K.hash^[(trytes j + 13).toNat]) 27 fragment).take 6561)

/-- **The address recovered** from fragments under a hash. -/
def recoveredAddress (signedHash : List ℤ) (fragments : List (List ℤ)) : List ℤ :=
  K.hash ((fragments.mapIdx fun i fragment =>
    fragmentDigest K (fun j => hashTryteVal signedHash (27 * i + j)) fragment).flatten)

theorem foldAlong_succ (hash siblings : List ℤ) (n leafIndex : ℕ) :
    foldAlong K siblings leafIndex (n + 1) hash =
      if leafIndex.testBit n then
        pairHash K (block 243 siblings n) (foldAlong K siblings leafIndex n hash)
      else pairHash K (foldAlong K siblings leafIndex n hash) (block 243 siblings n) := by
  rw [foldAlong, List.range_succ, List.foldl_append]
  rfl

theorem issMerkleRoot_eq (hash siblings : List ℤ) (n leafIndex : ℕ) :
    issMerkleRoot K hash siblings n leafIndex K.init =
      (foldAlong K siblings leafIndex n hash, K.init) := by
  induction n with
  | zero => rfl
  | succ n ih =>
    have hstep : issMerkleRoot K hash siblings (n + 1) leafIndex K.init =
        let p := issMerkleRoot K hash siblings n leafIndex K.init
        let sibling := block 243 siblings n
        let s :=
          if leafIndex.testBit n then K.absorb (K.absorb p.2 sibling) p.1
          else K.absorb (K.absorb p.2 p.1) sibling
        ((K.squeeze s).1, K.init) := by
      rw [issMerkleRoot, List.range_succ, List.foldl_append]
      rfl
    rw [hstep, ih, foldAlong_succ]
    dsimp only
    split_ifs <;> rfl

theorem issKerlSigDigest_eq {signedHash : List ℤ} {i : ℕ}
    (hn : ∀ j < 27, InTryte (hashTryteVal signedHash (27 * i + j))) (fragment : List ℤ) :
    issKerlSigDigest K (signedHash.drop (81 * i)) fragment 6561 K.init =
      (fragmentDigest K (fun j => hashTryteVal signedHash (27 * i + j)) fragment, K.init) := by
  have hrounds : mapBlocks 243 (fun j => K.hash^[sizeOfInt (hashTryteVal (signedHash.drop (81 * i))
      j - -13)]) 27 fragment =
      mapBlocks 243 (fun j => K.hash^[(hashTryteVal signedHash (27 * i + j) + 13).toNat]) 27
        fragment := by
    unfold mapBlocks
    refine List.foldl_ext _ _ _ fun l j hj => ?_
    have hv := hn j (List.mem_range.1 hj)
    unfold InTryte at hv
    have hsize : sizeOfInt (hashTryteVal (signedHash.drop (81 * i)) j - -13) =
        (hashTryteVal signedHash (27 * i + j) + 13).toNat := by
      rw [hashTryteVal_drop, sizeOfInt, sub_neg_eq_add, Int.emod_eq_of_lt (by omega) (by omega)]
    dsimp only
    rw [hsize]
  rw [issKerlSigDigest, K.hashBlocks_init]
  dsimp only
  rw [hrounds]
  rfl

omit [DecidableEq Hash] [HashBytes Hash] in
/-- The loop over the fragments. -/
theorem digestLoop_eq {signedHash : List ℤ} {i : ℕ} {txs : List (Transaction Hash)}
    (hn : ∀ k < 27 * (i + txs.length), InTryte (hashTryteVal signedHash k)) (digest : List ℤ) :
    digestLoop E K signedHash i txs (digest, K.init) =
      (digest ++ ((txs.map fun tx => toTrits E 6561 tx.signature).mapIdx fun j fragment =>
        fragmentDigest K (fun k => hashTryteVal signedHash (27 * (i + j) + k)) fragment).flatten,
        K.init) := by
  induction txs generalizing i digest with
  | nil => simp [digestLoop]
  | cons tx txs ih =>
    rw [List.length_cons] at hn
    rw [digestLoop, issKerlSigDigest_eq K fun j hj => hn _ (by omega)]
    dsimp only
    rw [ih fun k hk => hn k (by omega), List.map_cons, List.mapIdx_cons, List.flatten_cons,
      List.append_assoc]
    simp only [Nat.add_zero, Nat.add_assoc, Nat.add_comm 1]

theorem length_digests (signedHash : List ℤ) (fragments : List (List ℤ)) :
    ((fragments.mapIdx fun i fragment =>
      fragmentDigest K (fun j => hashTryteVal signedHash (27 * i + j)) fragment).flatten).length =
        fragments.length * 243 := by
  have hlen : ∀ n ∈ (fragments.mapIdx fun i fragment => fragmentDigest K
      (fun j => hashTryteVal signedHash (27 * i + j)) fragment).map List.length, n = 243 := by
    intro n hn
    obtain ⟨digest, hdigest, rfl⟩ := List.mem_map.1 hn
    obtain ⟨i, hi, rfl⟩ := List.mem_mapIdx.1 hdigest
    exact K.length_hash _
  rw [List.length_flatten, List.eq_replicate_of_mem hlen, List.sum_replicate, List.length_map,
    List.length_mapIdx, smul_eq_mul]

/-- A packed hash goes to its trits. -/
theorem toTrits_pack (hash : {ts : List ℤ // ts.length = 243 ∧ Trits ts}) :
    toTrits E 243 (pack E hash.1) = hash.1 := by
  obtain ⟨ts, hlen, hts⟩ := hash
  have hpack := @flexTritsToTrits_pack E ts (pack E ts) (List.replicate 243 0) 243 hts
    (List.prefix_refl _) (by omega) (fun _ => ⟨81, hlen⟩) (by omega)
    (by rw [List.length_replicate]; omega)
  rw [hlen] at hpack
  rw [toTrits, hpack, blit_full (by rw [hlen, List.length_replicate])]

/-- A hash goes to its trits and comes out normalized. -/
theorem normalizeFlexHashToTrits_eq (hash : {ts : List ℤ // ts.length = 243 ∧ Trits ts}) :
    normalizeFlexHashToTrits E (pack E hash.1) =
      normalizeHashToTrits hash.1 (List.replicate 243 0) := by
  rw [normalizeFlexHashToTrits, toTrits_pack]

end Scheme

/-! ## What is accepted -/

section Accepted

variable {E : Encoding} {trits : Hash → {ts : List ℤ // ts.length = 243 ∧ Trits ts}} {σ : Type}
variable {K : Kerl σ} {conf : Coordinator} {sponge : Sponge Hash}

variable (E trits K conf sponge) in
/-- **A milestone of the coordinator**: its bundle is valid, has a transaction for every fragment and
one more, the head, and the fragments lead along the index to the address of the coordinator. -/
structure Genuine (t : Tangle Hash) (candidate : Milestone Hash) : Prop where
  valid : Tangle.reportedStatus sponge t candidate.hash = .valid
  starts : (bundleOf t.transactions candidate.hash)[0]?.map (·.hash) = some candidate.hash
  longer : conf.securityLevel < (bundleOf t.transactions candidate.hash).length
  branches : ∀ head, (bundleOf t.transactions candidate.hash)[conf.securityLevel]? = some head →
    ∀ tx ∈ (bundleOf t.transactions candidate.hash).take conf.securityLevel,
      tx.branch = head.trunk
  in_range : candidate.index < conf.maxMilestoneIndex
  signed : ∀ head, (bundleOf t.transactions candidate.hash)[conf.securityLevel]? = some head →
    let signedHash := normalizeHashToTrits (trits head.hash).1 (List.replicate 243 0)
    let fragments := ((bundleOf t.transactions candidate.hash).take conf.securityLevel).map
      fun tx => toTrits E 6561 tx.signature
    let root := foldAlong K (toTrits E 6561 head.signature) candidate.index conf.depth
      (recoveredAddress K signedHash fragments)
    (flexTritsFromTrits E (List.replicate (E.numFlexTritsForTrits 243) 0) 243 root 243 243).1 =
      conf.address

omit [HashBytes Hash] in
theorem structure_of_valid {bundle : List (Transaction Hash)} {candidate : Milestone Hash} {n : ℕ}
    (hvalid : isMilestoneBundleStructureValid bundle candidate n = true) :
    bundle[0]?.map (·.hash) = some candidate.hash ∧ n < bundle.length ∧
      ∀ head, bundle[n]? = some head → ∀ tx ∈ bundle.take n, tx.branch = head.trunk := by
  unfold isMilestoneBundleStructureValid at hvalid
  rcases h0 : bundle[0]? with _ | tail
  · rw [h0] at hvalid
    cases hvalid
  · rcases hn : bundle[n]? with _ | head
    · rw [h0, hn] at hvalid
      cases hvalid
    · rw [h0, hn] at hvalid
      simp only [Bool.and_eq_true, decide_eq_true_eq, List.all_eq_true, List.mem_range] at hvalid
      obtain ⟨hhash, hbranches⟩ := hvalid
      obtain ⟨hlt, -⟩ := List.getElem?_eq_some_iff.1 hn
      refine ⟨congrArg some hhash, hlt, fun head' hhead' tx htx => ?_⟩
      cases hhead'
      obtain ⟨i, hi, rfl⟩ := List.getElem_of_mem htx
      rw [List.length_take] at hi
      have hbranch := hbranches i (by omega)
      rw [List.getElem?_eq_getElem (by omega)] at hbranch
      rw [List.getElem_take]
      exact of_decide_eq_true hbranch

omit [DecidableEq Hash] [HashBytes Hash] in
/-- The signature of what `validate_coordinator` accepts. -/
theorem signed_of_valid {bundle : List (Transaction Hash)} {candidate : Milestone Hash}
    (hvalid : validateCoordinator E trits K conf candidate bundle = some true)
    {head : Transaction Hash} (hhead : bundle[conf.securityLevel]? = some head) :
    (flexTritsFromTrits E (List.replicate (E.numFlexTritsForTrits 243) 0) 243
      (foldAlong K (toTrits E 6561 head.signature) candidate.index conf.depth
        (recoveredAddress K (normalizeHashToTrits (trits head.hash).1 (List.replicate 243 0))
          ((bundle.take conf.securityLevel).map fun tx => toTrits E 6561 tx.signature)))
      243 243).1 = conf.address := by
  unfold validateCoordinator at hvalid
  rw [hhead] at hvalid
  dsimp only at hvalid
  split_ifs at hvalid with hbounds
  rw [not_or, not_lt, not_lt] at hbounds
  have hlevel := hbounds.1
  obtain ⟨hlt, -⟩ := List.getElem?_eq_some_iff.1 hhead
  have htake : (bundle.take conf.securityLevel).length = conf.securityLevel := by
    rw [List.length_take]
    omega
  have haccepted := of_decide_eq_true (Option.some.inj hvalid)
  generalize trits head.hash = hash at haccepted ⊢
  have hn : ∀ k < 27 * (0 + (bundle.take conf.securityLevel).length),
      InTryte (hashTryteVal (normalizeHashToTrits hash.1 (List.replicate 243 0)) k) := by
    intro k hk
    obtain ⟨hval, hin⟩ := hashTryteVal_normalized hash.2.2 (List.length_replicate) (show k < 81 by omega)
    rw [hval]
    exact hin
  rw [normalizeFlexHashToTrits_eq, digestLoop_eq K hn] at haccepted
  simp only [List.nil_append, Nat.zero_add] at haccepted
  have hdigests := length_digests K (normalizeHashToTrits hash.1 (List.replicate 243 0))
    ((bundle.take conf.securityLevel).map fun tx => toTrits E 6561 tx.signature)
  rw [List.length_map, htake] at hdigests
  rw [issKerlAddress, List.take_of_length_le (Nat.le_of_eq hdigests), issMerkleRoot_eq] at haccepted
  exact haccepted

/-- **What is accepted is a milestone** of the coordinator. -/
theorem genuine_of_valid {latestSolid latest : ℕ} {candidate : Milestone Hash} {t t' : Tangle Hash}
    (hrun : validateMilestone E trits K conf sponge latestSolid latest candidate t = .ok .valid t') :
    Genuine E trits K conf sponge t candidate := by
  unfold validateMilestone at hrun
  by_cases hmax : conf.maxMilestoneIndex ≤ candidate.index
  · rw [if_pos hmax] at hrun
    cases hrun
  rw [if_neg hmax] at hrun
  split_ifs at hrun
  · cases hrun
  obtain ⟨exist, t₁, hexist, hrun⟩ := bind_eq_ok.mp hrun
  have hsame : Tangle.SameTables t t₁ := (Tangle.keeps_read rfl _).of_ok hexist
  split_ifs at hrun
  · cases hrun
  obtain ⟨⟨bundle, status⟩, t₂, hvalidate, hrun⟩ := bind_eq_ok.mp hrun
  obtain ⟨-, hbundle, hstatus, -⟩ := Tangle.bundleValidatorValidate_ok hvalidate
  rw [hsame.1] at hbundle
  rw [Tangle.reportedStatus_of_sameTables hsame] at hstatus
  dsimp only at hrun
  split_ifs at hrun with hincomplete hok hstructure
  · cases hrun
  · cases hrun
  · rcases hcoo : validateCoordinator E trits K conf candidate bundle with _ | _ | _
    · rw [hcoo] at hrun
      cases hrun
    · rw [hcoo] at hrun
      cases hrun
    · obtain ⟨hstarts, hlonger, hbranches⟩ :=
        structure_of_valid (Bool.eq_true_of_not_eq_false hstructure)
      subst hbundle
      exact ⟨hstatus.symm.trans hok, hstarts, hlonger, hbranches, not_le.1 hmax,
        fun head hhead => signed_of_valid hcoo hhead⟩
  · cases hrun

variable (E) in
/-- The number that the trits of the obsolete tag denote. -/
def tagValue (tx : Transaction Hash) : ℤ := value ((toTrits E 81 tx.obsoleteTag).take 81)

omit [DecidableEq Hash] [HashBytes Hash] in
/-- **The index of a candidate** is that number, wrapped. -/
theorem getMilestoneIndex_eq (tx : Transaction Hash) :
    getMilestoneIndex E tx = (tagValue E tx % 2 ^ 64).toNat := by
  rw [getMilestoneIndex, tritsToLong_eq, ← tagValue]
  exact BitVec.toNat_ofInt _

/-- The way from a leaf to the root that an index chooses, by its bits. -/
def leafPath (depth index : ℕ) : List Bool := (List.range depth).map index.testBit

theorem eq_of_leafPath_eq {depth index index' : ℕ} (hlt : index < 2 ^ depth)
    (hlt' : index' < 2 ^ depth) (hpath : leafPath depth index = leafPath depth index') :
    index = index' := by
  refine Nat.eq_of_testBit_eq fun i => ?_
  rcases Nat.lt_or_ge i depth with hi | hi
  · have hbit := congrArg (fun path => path[i]?) hpath
    simp only [leafPath, List.getElem?_map, List.getElem?_range hi, Option.map_some] at hbit
    exact Option.some.inj hbit
  · rw [Nat.testBit_lt_two_pow (hlt.trans_le (Nat.pow_le_pow_right (by decide) hi)),
      Nat.testBit_lt_two_pow (hlt'.trans_le (Nat.pow_le_pow_right (by decide) hi))]

/-- **Only genuine milestones are accepted**, under an index that is the number in the obsolete tag
exactly when this fits into a word; where the coordinator has a leaf for every index, no two indexes
that are accepted share one. -/
theorem accepted_is_genuine {latestSolid latest : ℕ} {h : Hash} {tx : Transaction Hash}
    {t t' : Tangle Hash} (hstored : t.transactions.find? h = some tx)
    (hrun : validateMilestone E trits K conf sponge latestSolid latest ⟨getMilestoneIndex E tx, h⟩ t =
      .ok .valid t') :
    (Genuine E trits K conf sponge t ⟨getMilestoneIndex E tx, h⟩ ∧
      (bundleOf t.transactions h)[0]? = some tx) ∧
    ((getMilestoneIndex E tx : ℤ) = tagValue E tx ↔ 0 ≤ tagValue E tx ∧ tagValue E tx < 2 ^ 64) ∧
    (conf.maxMilestoneIndex ≤ 2 ^ conf.depth → ∀ (latestSolid latest : ℕ) (other : Milestone Hash)
      (u u' : Tangle Hash),
      validateMilestone E trits K conf sponge latestSolid latest other u = .ok .valid u' →
        other.index ≠ getMilestoneIndex E tx →
          leafPath conf.depth other.index ≠ leafPath conf.depth (getMilestoneIndex E tx)) := by
  have hgenuine := genuine_of_valid hrun
  refine ⟨⟨hgenuine, ?_⟩, ?_, fun hmax latestSolid latest other u u' hother hne hpath => ?_⟩
  · have hstarts := hgenuine.starts
    dsimp only at hstarts
    have hc : tx.currentIndex = 0 := by
      by_contra hc
      rw [bundleOf, hstored] at hstarts
      dsimp only at hstarts
      rw [if_pos hc] at hstarts
      cases hstarts
    obtain ⟨rest, hbundle⟩ := Tangle.head_bundleOf hstored hc
    rw [hbundle]
    rfl
  · rw [getMilestoneIndex_eq]
    omega
  · have hlt := hgenuine.in_range.trans_le hmax
    have hlt' := (genuine_of_valid hother).in_range.trans_le hmax
    exact hne (eq_of_leafPath_eq hlt' hlt hpath)

end Accepted

/-! ## An index that wraps -/

namespace Wrapping

/-- A sponge that gives zeros. -/
def K : Kerl Unit :=
  ⟨(), fun _ _ => (), fun _ => (List.replicate 243 0, ()), fun _ => List.length_replicate,
    fun _ => trits_replicate 243⟩

/-- Hashes of zeros. -/
def trits (_ : Fin 256) : {ts : List ℤ // ts.length = 243 ∧ Trits ts} :=
  ⟨List.replicate 243 0, List.length_replicate, trits_replicate 243⟩

/-- The zeros as flex trits. -/
def address : List FlexTrit :=
  (flexTritsFromTrits .one (List.replicate (Encoding.one.numFlexTritsForTrits 243) 0) 243
    (List.replicate 243 0) 243 243).1

/-- A coordinator with two leaves. -/
def conf : Coordinator := ⟨1, 1, 2, address⟩

/-- The candidate, with a number in its tag. -/
def tail (v : ℤ) : Transaction (Fin 256) :=
  { plainTx 1 2 3 0 0 0 1 with
    obsoleteTag := pack .one (digits 81 v)
    signature := pack .one (List.replicate 6561 0)
    validity := .notInitialized }

/-- The head of the bundle. -/
def head : Transaction (Fin 256) :=
  { plainTx 2 3 3 0 0 1 1 with
    signature := pack .one (List.replicate 6561 0)
    validity := .notInitialized }

/-- The store with the bundle. -/
def tangle (v : ℤ) : Tangle (Fin 256) where
  transactions := ⟨[tail v, head], show ([1, 2] : List (Fin 256)).Nodup by decide⟩
  milestones := ⟨Table.empty, List.nodup_nil⟩
  faults := fun _ => []

theorem tagValue_tail {v : ℤ} (hv : 2 * |v| < 3 ^ 81) : tagValue .one (tail v) = v := by
  have hlen := length_digits 81 v
  have hpack := @flexTritsToTrits_pack .one _ (pack .one (digits 81 v))
    (List.replicate 81 0) 81 (trits_digits 81 v) (List.prefix_refl _) (by omega)
    (fun h => nomatch h) (by omega) (by rw [List.length_replicate]; omega)
  rw [hlen] at hpack
  have htrits : toTrits .one 81 (tail v).obsoleteTag = digits 81 v :=
    hpack.trans (blit_full (by rw [hlen, List.length_replicate]))
  rw [tagValue, htrits, List.take_of_length_le hlen.le, value_digits hv]

theorem issMerkleRoot_one (hash siblings : List ℤ) (index : ℕ) (s : Unit) :
    (issMerkleRoot K hash siblings 1 index s).1 = List.replicate 243 0 := rfl

/-- The coordinator accepts every signature. -/
theorem validateCoordinator_true (v : ℤ) (candidate : Milestone (Fin 256)) :
    validateCoordinator .one trits K conf candidate [tail v, head] = some true := by
  have hhead : ([tail v, head] : List (Transaction (Fin 256)))[conf.securityLevel]? = some head := rfl
  have hdepth : conf.depth = 1 := rfl
  unfold validateCoordinator
  rw [hhead]
  dsimp only
  rw [if_neg (by decide), hdepth, issMerkleRoot_one]
  exact congrArg some (decide_eq_true rfl)

theorem reportedStatus_tail (v : ℤ) : Tangle.reportedStatus plainSponge (tangle v) 1 = .valid := rfl

theorem bundleOf_tail (v : ℤ) : bundleOf (tangle v).transactions 1 = [tail v, head] := rfl

theorem accepted (v : ℤ) : ∃ t', validateMilestone .one trits K conf plainSponge 0 0
    ⟨1, 1⟩ (tangle v) = .ok .valid t' := by
  have hquiet : (tangle v).Quiet := rfl
  have hfind : (tangle v).transactions.find? 1 = some (tail v) := rfl
  obtain ⟨⟨bundle, status⟩, t', hrun, -⟩ :=
    Tangle.bundleValidatorValidate_of_quiet plainSponge hquiet hfind rfl
  obtain ⟨-, hbundle, hstatus, -⟩ := Tangle.bundleValidatorValidate_ok hrun
  rw [bundleOf_tail] at hbundle
  rw [reportedStatus_tail] at hstatus
  subst hbundle hstatus
  refine ⟨t', ?_⟩
  have hexist : Tangle.milestoneExist (1 : Fin 256) (tangle v) = .ok false (tangle v) := rfl
  have hstructure : isMilestoneBundleStructureValid [tail v, head] ⟨1, 1⟩ conf.securityLevel = true :=
    rfl
  rw [validateMilestone, if_neg (by decide), if_neg (by decide), bind_apply_ok hexist]
  dsimp only
  rw [if_neg (by decide), bind_apply_ok hrun]
  dsimp only
  rw [if_neg (by decide), if_pos rfl, hstructure, if_neg (by decide), validateCoordinator_true]
  rfl

theorem getMilestoneIndex_tail {v : ℤ} (hv : 2 * |v| < 3 ^ 81) :
    getMilestoneIndex .one (tail v) = (v % 2 ^ 64).toNat := by
  rw [getMilestoneIndex_eq, tagValue_tail hv]

end Wrapping

/-- The milestone with index 1. -/
theorem accepted_is_genuine_one :
    Genuine .one Wrapping.trits Wrapping.K Wrapping.conf plainSponge (Wrapping.tangle 1)
      ⟨getMilestoneIndex .one (Wrapping.tail 1), 1⟩ := by
  have hindex : getMilestoneIndex .one (Wrapping.tail 1) = 1 :=
    Wrapping.getMilestoneIndex_tail (two_mul_abs_lt.2 ⟨by norm_num, by norm_num⟩)
  obtain ⟨t', hrun⟩ := Wrapping.accepted 1
  have hfind : (Wrapping.tangle 1).transactions.find? 1 = some (Wrapping.tail 1) := rfl
  exact (accepted_is_genuine hfind (hindex.symm ▸ hrun)).1.1

/-- **An index above 64 bits** is taken for a lower one. -/
theorem not_exact_wrapping :
    ¬ ∀ (E : Encoding) (trits : Fin 256 → {ts : List ℤ // ts.length = 243 ∧ Trits ts})
      (K : Kerl Unit) (conf : Coordinator) (sponge : Sponge (Fin 256)) (latestSolid latest : ℕ)
      (h : Fin 256) (tx : Transaction (Fin 256)) (t t' : Tangle (Fin 256)),
      t.transactions.find? h = some tx →
        validateMilestone E trits K conf sponge latestSolid latest ⟨getMilestoneIndex E tx, h⟩ t =
          .ok .valid t' →
          (getMilestoneIndex E tx : ℤ) = tagValue E tx := by
  intro hexact
  have hsmall : 2 * |(2 ^ 64 + 1 : ℤ)| < 3 ^ 81 := two_mul_abs_lt.2 ⟨by norm_num, by norm_num⟩
  have hindex : getMilestoneIndex .one (Wrapping.tail (2 ^ 64 + 1)) = 1 :=
    (Wrapping.getMilestoneIndex_tail hsmall).trans (by norm_num)
  obtain ⟨t', hrun⟩ := Wrapping.accepted (2 ^ 64 + 1)
  have hsame := hexact .one Wrapping.trits Wrapping.K Wrapping.conf plainSponge 0 0 1
    (Wrapping.tail (2 ^ 64 + 1)) (Wrapping.tangle (2 ^ 64 + 1)) t' rfl (hindex.symm ▸ hrun)
  rw [hindex, Wrapping.tagValue_tail hsmall] at hsame
  norm_num at hsame

end Coordinator

end Entangled
