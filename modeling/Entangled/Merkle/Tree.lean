import Entangled.Common.PerfectTree
import Entangled.Signing.Iss
/-!
# The coordinator's Merkle tree

`merkle.c` with the signing scheme it takes its leaves from (`iss.c.inc` of the second version, over
Curl). The tree is one array of hashes, numbered depth first by `merkle_node_index`.

Where a number is written `1 << k` the source shifts an `int`. C leaves open what comes of it from
`k = 31` on, and so does `oneShl`.
-/

namespace Entangled

namespace Merkle

/-! ## The sponge and the leaves -/

/-- The sponge: the state `curl_reset` leaves, and what the other two calls make of a state. -/
structure Curl (σ : Type) where
  reset : σ
  absorb : σ → List ℤ → σ
  squeeze : σ → ℕ → List ℤ × σ
  length_squeeze : ∀ s n, (squeeze s n).1.length = n

section Iss

variable {σ : Type} (C : Curl σ)

/-- Absorb a hash, squeeze it back over itself, reset. -/
def rehash (p : List ℤ × σ) : List ℤ × σ := ((C.squeeze (C.absorb p.2 p.1) 243).1, C.reset)

/-- A loop that hashes the blocks of a buffer in place, each of them `rounds` times. -/
def hashBlocks (rounds m : ℕ) (p : List ℤ × σ) : List ℤ × σ :=
  (List.range m).foldl (fun p i =>
    let q := (rehash C)^[rounds] (block 243 p.1 i, p.2)
    (blit p.1 (243 * i) q.1, q.2)) p

/-- `iss_curl_subseed`. -/
def issCurlSubseed (seed : List ℤ) (index : Int64) (c : σ) : List ℤ × σ :=
  rehash C (addAssign seed index, c)

/-- `iss_curl_key`. -/
def issCurlKey (subseed : List ℤ) (keyLength : ℕ) (c : σ) : List ℤ × σ :=
  hashBlocks C 1 (keyLength / 243) ((C.squeeze (C.absorb c subseed) keyLength).1, C.reset)

/-- `iss_curl_key_digest`. -/
def issCurlKeyDigest (key : List ℤ) (keyLength : ℕ) (c : σ) : List ℤ × σ :=
  let p := hashBlocks C 26 (keyLength / 243) (key, c)
  ((C.squeeze (C.absorb p.2 (p.1.take keyLength)) 243).1, C.reset)

/-- `iss_curl_address`. -/
def issCurlAddress (digest : List ℤ) (length : ℕ) (c : σ) : List ℤ × σ :=
  ((C.squeeze (C.absorb c (digest.take length)) 243).1, C.reset)

/-- `ISS_KEY_LENGTH`. -/
def issKeyLength : ℕ := 6561

/-- The body of the loop of `merkle_create` that makes a leaf: the address of a key. -/
def leafFrom (seed : List ℤ) (index : Int64) (security : ℕ) (c : σ) : List ℤ × σ :=
  let keySize := security * issKeyLength
  let subseed := issCurlSubseed C seed index c
  let key := issCurlKey C subseed.1 keySize subseed.2
  let digest := issCurlKeyDigest C key.1 keySize key.2
  issCurlAddress C digest.1 243 digest.2

/-- The address of the key with this index, made with a reset sponge. -/
def leafAddress (seed : List ℤ) (index : Int64) (security : ℕ) : List ℤ :=
  (leafFrom C seed index security C.reset).1

end Iss

/-! ## Numbering -/

/-- `1 << k`. -/
def oneShl (undef : ℕ → ℤ) (k : ℕ) : ℤ := if k < 31 then 2 ^ k else undef k

/-- An `int` as the `size_t` it is added to. -/
def toSize (v : ℤ) : ℕ := (v % 2 ^ 64).toNat

/-- `binary_tree_size`. -/
def binaryTreeSize (undef : ℕ → ℤ) (acc depth : ℕ) : ℕ :=
  (toSize (oneShl undef (depth + 1) - 1) + acc) % 2 ^ 64

/-- The loop of `merkle_size`. -/
def merkleSizeLoop (acc count : ℕ) : ℕ :=
  if 2 ≤ count then merkleSizeLoop ((acc + count) % 2 ^ 64) ((count + 1) / 2) else acc
termination_by count
decreasing_by omega

/-- `merkle_size`. -/
def merkleSize (leafCount : ℕ) : ℕ :=
  if leafCount = 0 then 0 else if leafCount = 1 then 1 else merkleSizeLoop 1 leafCount

/-- The loop of `merkle_depth`, for so many rounds. -/
def merkleDepthLoop (undef : ℕ → ℤ) (nodeCount : ℕ) : ℕ → ℕ → Option ℕ
  | 0, _ => none
  | fuel + 1, depth =>
    if binaryTreeSize undef 0 depth < nodeCount then
      merkleDepthLoop undef nodeCount fuel (depth + 1)
    else some (depth + 1)

/-- `merkle_depth`. -/
def merkleDepth (undef : ℕ → ℤ) (fuel nodeCount : ℕ) : Option ℕ :=
  merkleDepthLoop undef nodeCount fuel 0

/-- The loop of `merkle_node_index_traverse`, with the rounds that are left. -/
def traverse (undef : ℕ → ℤ) (treeDepth widthOfLeaves : ℕ) : ℕ → ℕ → ℕ → ℕ → ℕ
  | 0, _, index, _ => index
  | rounds + 1, cursor, index, width =>
    if widthOfLeaves >>> cursor ≤ width then
      traverse undef treeDepth widthOfLeaves rounds (cursor + 1)
        ((index + toSize (oneShl undef (treeDepth - cursor + 1) - 1)) % 2 ^ 64)
        (width - widthOfLeaves >>> cursor)
    else traverse undef treeDepth widthOfLeaves rounds (cursor + 1) index width

/-- `merkle_node_index`. -/
def merkleNodeIndex (undef : ℕ → ℤ) (depth width treeDepth : ℕ) : ℕ :=
  if treeDepth = 0 then 0
  else traverse undef treeDepth (toSize (oneShl undef depth)) depth 1 depth width

/-- `merkle_leaf_index`. -/
def merkleLeafIndex (leafIndex leafCount : ℕ) : ℕ := leafCount - leafIndex - 1

/-! ## The tree -/

section Tree

variable {σ : Type} (undef : ℕ → ℤ) (C : Curl σ)

/-- Fill in the leaf at a place of the lowest level. -/
def createLeaf (baseSize : ℕ) (seed : List ℤ) (offset : Int64) (security td : ℕ)
    (p : List ℤ × σ) (leafIndex : ℕ) : List ℤ × σ :=
  let address := leafFrom C seed (offset + Int64.ofNat (merkleLeafIndex leafIndex baseSize))
    security p.2
  (blit p.1 (243 * merkleNodeIndex undef td leafIndex td) address.1, address.2)

/-- Hash two neighbors of a level into their parent. -/
def hashPair (td depth curSize : ℕ) (p : List ℤ × σ) (j : ℕ) : List ℤ × σ :=
  let width := 2 * j
  let c :=
    if width < curSize - 1 then
      C.absorb (C.absorb p.2 (block 243 p.1 (merkleNodeIndex undef depth (width + 1) td)))
        (block 243 p.1 (merkleNodeIndex undef depth width td))
    else
      C.absorb (C.absorb p.2 (block 243 p.1 (merkleNodeIndex undef depth width td)))
        (List.replicate 243 0)
  (blit p.1 (243 * merkleNodeIndex undef (depth - 1) (width / 2) td) (C.squeeze c 243).1, C.reset)

/-- One level. -/
def hashLevel (td depth curSize : ℕ) (p : List ℤ × σ) : List ℤ × σ :=
  (List.range ((curSize + 1) / 2)).foldl (hashPair undef C td depth curSize) p

/-- The levels from `depth` up. -/
def hashTree (td : ℕ) : ℕ → ℕ → List ℤ × σ → List ℤ × σ
  | 0, _, p => p
  | depth + 1, curSize, p =>
    hashTree td depth ((curSize + 1) / 2) (hashLevel undef C td (depth + 1) curSize p)

/-- `merkle_create`: the return code, the tree and the state of the sponge. -/
def merkleCreate (fuel : ℕ) (tree : List ℤ) (baseSize : ℕ) (seed : List ℤ) (offset : Int64)
    (security : ℕ) (c : σ) : Option (ℤ × List ℤ × σ) :=
  if baseSize ≠ 0 ∧ baseSize &&& (baseSize - 1) ≠ 0 then some (-1, tree, c)
  else
    match merkleDepth undef fuel (merkleSize baseSize) with
    | none => none
    | some depth =>
      let td := depth - 1
      let p := (List.range baseSize).foldl (createLeaf undef C baseSize seed offset security td)
        (tree, c)
      some (0, hashTree undef C td td baseSize p)

/-- The loop of `merkle_branch`, from the leaves up. -/
def branchLoop (tree : List ℤ) (treeLength treeDepth : ℕ) : ℕ → ℕ → ℕ → List ℤ → List ℤ
  | 0, _, _, siblings => siblings
  | depthIndex + 1, i, siblingIndex, siblings =>
    let siblingIndex := if siblingIndex % 2 = 1 then siblingIndex - 1 else siblingIndex + 1
    let siteIndex := 243 * merkleNodeIndex undef (depthIndex + 1) siblingIndex (treeDepth - 1)
    let sibling :=
      if treeLength ≤ siteIndex then List.replicate 243 0 else (tree.drop siteIndex).take 243
    branchLoop tree treeLength treeDepth depthIndex (i + 1) (siblingIndex / 2)
      (blit siblings (243 * i) sibling)

/-- `merkle_branch`: the return code and the siblings. A pointer may be null. -/
def merkleBranch (fuel : ℕ) (tree siblings : Option (List ℤ)) (treeLength treeDepth : ℕ)
    (leafIndex leafCount : ℕ) : Option (ℤ × Option (List ℤ)) :=
  match siblings, tree with
  | none, _ => some (1, siblings)
  | some _, none => some (2, siblings)
  | some buffer, some nodes =>
    if treeLength ≤ 243 * merkleNodeIndex undef (treeDepth - 1) leafIndex (treeDepth - 1) then
      some (3, siblings)
    else
      match merkleDepth undef fuel (treeLength / 243) with
      | none => none
      | some depth =>
        if depth < treeDepth then some (4, siblings)
        else
          some (0, some (branchLoop undef nodes treeLength treeDepth (treeDepth - 1) 0
            (merkleLeafIndex leafIndex leafCount) buffer))

/-- `merkle_root`: the hash and the state of the sponge. -/
def merkleRoot (hash siblings : List ℤ) (siblingsNumber leafIndex : ℕ) (c : σ) : List ℤ × σ :=
  (List.range siblingsNumber).foldl (fun p i =>
    let sibling := block 243 siblings i
    let c :=
      if leafIndex.testBit i then C.absorb (C.absorb p.2 sibling) p.1
      else C.absorb (C.absorb p.2 p.1) sibling
    ((C.squeeze c 243).1, C.reset)) (hash, c)

end Tree

/-! ## The numbers are those of a perfect tree -/

variable {undef : ℕ → ℤ} {h d w k : ℕ}

theorem toSize_oneShl (hk : k < 31) : toSize (oneShl undef k) = 2 ^ k := by
  have hlt : (2 : ℤ) ^ k < 2 ^ 64 := pow_lt_pow_right₀ (by decide) (by omega)
  have hpos : (0 : ℤ) < 2 ^ k := by positivity
  rw [oneShl, if_pos hk, toSize, Int.emod_eq_of_lt hpos.le hlt]
  exact Int.toNat_natCast (2 ^ k)

theorem toSize_oneShl_sub (hk : k < 31) : toSize (oneShl undef k - 1) = 2 ^ k - 1 := by
  have hlt : (2 : ℤ) ^ k < 2 ^ 64 := pow_lt_pow_right₀ (by decide) (by omega)
  have hpos : (1 : ℤ) ≤ 2 ^ k := one_le_pow₀ (by decide)
  have hcast : ((2 ^ k : ℕ) : ℤ) = 2 ^ k := by push_cast; rfl
  rw [oneShl, if_pos hk, toSize, Int.emod_eq_of_lt (by omega) (by omega)]
  omega

theorem merkleSizeLoop_two_pow (acc : ℕ) (hacc : acc + 2 ^ (d + 1) ≤ 2 ^ 64 + 1) :
    merkleSizeLoop acc (2 ^ d) = acc + (2 ^ (d + 1) - 2) := by
  induction d generalizing acc with
  | zero =>
    rw [merkleSizeLoop, if_neg (by decide)]
    rfl
  | succ d ih =>
    have hpow : 2 ^ (d + 1) = 2 * 2 ^ d := by ring
    have hpow' : 2 ^ (d + 2) = 2 * 2 ^ (d + 1) := by ring
    have hpos := Nat.two_pow_pos d
    rw [merkleSizeLoop, if_pos (by omega), Nat.mod_eq_of_lt (by omega),
      show (2 ^ (d + 1) + 1) / 2 = 2 ^ d by omega, ih (acc + 2 ^ (d + 1)) (by omega)]
    omega

/-- A tree over `2 ^ d` leaves has `2 ^ (d + 1) - 1` nodes. -/
theorem merkleSize_two_pow (hd : d < 64) : merkleSize (2 ^ d) = 2 ^ (d + 1) - 1 := by
  have hle : 2 ^ (d + 1) ≤ 2 ^ 64 := Nat.pow_le_pow_right (by decide) (by omega)
  have hpos := Nat.two_pow_pos d
  have hpow : 2 ^ (d + 1) = 2 * 2 ^ d := by ring
  rw [merkleSize, if_neg hpos.ne']
  split_ifs with h₁
  · omega
  · rw [merkleSizeLoop_two_pow 1 (by omega)]
    omega

theorem traverse_eq {index rounds cursor width : ℕ} (hh : h < 31)
    (hdepth : cursor + rounds = d + 1) (hd : d ≤ h) (hcursor : 1 ≤ cursor)
    (hw : width < 2 ^ rounds)
    (hindex : index + PerfectTree.preorder (h + 1 - cursor) rounds width ≤ 2 ^ 64) :
    traverse undef h (2 ^ d) rounds cursor index width + rounds =
      index + PerfectTree.preorder (h + 1 - cursor) rounds width := by
  induction rounds generalizing cursor index width with
  | zero =>
    rw [PerfectTree.preorder_zero]
    rfl
  | succ rounds ih =>
    have hshift : 2 ^ d >>> cursor = 2 ^ rounds := by
      rw [Nat.shiftRight_eq_div_pow, show d = rounds + cursor by omega, Nat.pow_add]
      exact Nat.mul_div_cancel _ (Nat.two_pow_pos cursor)
    rw [show h + 1 - cursor = h + 1 - (cursor + 1) + 1 by omega,
      PerfectTree.preorder_succ] at hindex ⊢
    rw [pow_succ] at hw
    rw [traverse, hshift]
    split_ifs at hindex ⊢ with hright
    · -- the left side is passed over
      have hsize : toSize (oneShl undef (h - cursor + 1) - 1) =
          2 ^ (h + 1 - (cursor + 1) + 1) - 1 := by
        rw [toSize_oneShl_sub (by omega), show h + 1 - (cursor + 1) + 1 = h - cursor + 1 by omega]
      rw [hsize, Nat.mod_eq_of_lt (by omega)]
      have hrest := @ih (index + (2 ^ (h + 1 - (cursor + 1) + 1) - 1)) (cursor + 1)
        (width - 2 ^ rounds) (by omega) (by omega) (by omega) (by omega)
      omega
    · have hrest := @ih index (cursor + 1) width (by omega) (by omega) (by omega) (by omega)
      omega

/-- **The index of a node** is its number depth first. -/
theorem merkleNodeIndex_eq (hh : h < 30) (hd : d ≤ h) (hw : w < 2 ^ d) :
    merkleNodeIndex undef d w h = PerfectTree.preorder h d w := by
  unfold merkleNodeIndex
  split_ifs with h₀
  · obtain rfl : d = 0 := by omega
    rw [PerfectTree.preorder_zero]
  · have hlt := PerfectTree.preorder_lt hd hw
    have hpow : 2 ^ (h + 1) ≤ 2 ^ 31 := Nat.pow_le_pow_right (by decide) (by omega)
    have hnumber := @traverse_eq undef h d d d 1 w (by omega) (by omega) hd le_rfl hw
      (by rw [Nat.add_sub_cancel]; omega)
    rw [Nat.add_sub_cancel] at hnumber
    rw [toSize_oneShl (by omega)]
    omega

theorem merkleDepthLoop_two_pow {n : ℕ} (hn : n < 30) {fuel depth : ℕ} (hdepth : depth ≤ n)
    (hfuel : n < depth + fuel) :
    merkleDepthLoop undef (2 ^ (n + 1) - 1) fuel depth = some (n + 1) := by
  induction fuel generalizing depth with
  | zero => omega
  | succ fuel ih =>
    have hpos := Nat.two_pow_pos (depth + 1)
    have hlt : 2 ^ (depth + 1) < 2 ^ 64 := Nat.pow_lt_pow_right (by decide) (by omega)
    rw [merkleDepthLoop, binaryTreeSize, toSize_oneShl_sub (by omega), Nat.add_zero,
      Nat.mod_eq_of_lt (by omega)]
    split_ifs with hshort
    · have hne : depth ≠ n := fun heq => by
        rw [heq] at hshort
        exact Nat.lt_irrefl _ hshort
      exact ih (by omega) (by omega)
    · have hge : n ≤ depth := by
        by_contra hlt
        have := Nat.pow_lt_pow_right (show 1 < 2 by decide) (show depth + 1 < n + 1 by omega)
        omega
      rw [show depth = n by omega]

/-- The depth of such a tree is found. -/
theorem merkleDepth_two_pow {n : ℕ} (hn : n < 30) {fuel : ℕ} (hfuel : n < fuel) :
    merkleDepth undef fuel (2 ^ (n + 1) - 1) = some (n + 1) :=
  merkleDepthLoop_two_pow hn (Nat.zero_le n) (by omega)

end Merkle

end Entangled
