import Entangled.Common.Blocks
import Entangled.Merkle.Tree
/-!
# Soundness of the coordinator's tree

The tree `merkleCreate` makes holds, at the number of every node, the hash of what is below it
(`Built`), so a branch holds the hashes next to the way up, and `merkleRoot` climbs to the hash at
number zero. All of this is so as long as no shift leaves the range of an `int`: up to `2 ^ 29`
leaves, and for no larger tree (`sound_iff`).
-/

namespace Entangled

namespace Merkle

open PerfectTree

/-- What the numbering and the branches of a tree over `2 ^ d` leaves are to satisfy. -/
structure Sound (undef : ℕ → ℤ) (d : ℕ) : Prop where
  /-- Positions have numbers below the size. -/
  index_lt : ∀ e w, e ≤ d → w < 2 ^ e → merkleNodeIndex undef e w d < merkleSize (2 ^ d)
  /-- No two positions have the same number. -/
  index_inj : ∀ e w e' w', e ≤ d → w < 2 ^ e → e' ≤ d → w' < 2 ^ e' →
    merkleNodeIndex undef e w d = merkleNodeIndex undef e' w' d → e = e' ∧ w = w'
  /-- Every number is that of a position. -/
  index_onto : ∀ k < merkleSize (2 ^ d), ∃ e w, e ≤ d ∧ w < 2 ^ e ∧ merkleNodeIndex undef e w d = k
  /-- The branch of a leaf leads from its address to the root of the tree. -/
  root : ∀ (σ : Type) (C : Curl σ) (tree siblings seed : List ℤ) (offset : Int64)
    (security leafIndex : ℕ), 1 ≤ security → tree.length = 243 * merkleSize (2 ^ d) →
    siblings.length = 243 * d → leafIndex < 2 ^ d →
    ∃ fuel tree' siblings',
      merkleCreate undef C fuel tree (2 ^ d) seed offset security C.reset =
        some (0, tree', C.reset) ∧
      merkleBranch undef fuel (some tree') (some siblings) (243 * merkleSize (2 ^ d)) (d + 1)
        leafIndex (2 ^ d) = some (0, some siblings') ∧
      merkleRoot C (leafAddress C seed (offset + Int64.ofNat leafIndex) security) siblings' d
        leafIndex C.reset = (block 243 tree' 0, C.reset)

/-! ## The tree is filled in -/

/-- The hash of two neighbors: the right one is absorbed first. -/
def combine {σ : Type} (C : Curl σ) (left right : List ℤ) : List ℤ :=
  (C.squeeze (C.absorb (C.absorb C.reset right) left) 243).1

/-- The tree holds the value of each position that is `Done`. -/
structure Built (h : ℕ) (node : ℕ → ℕ → List ℤ) (Done : ℕ → ℕ → Prop) (tree : List ℤ) : Prop where
  length : tree.length = 243 * (2 ^ (h + 1) - 1)
  value : ∀ e w, e ≤ h → w < 2 ^ e → Done e w → block 243 tree (preorder h e w) = node (h - e) w

section Built

variable {h e w : ℕ} {node : ℕ → ℕ → List ℤ} {Done Done' : ℕ → ℕ → Prop} {tree : List ℤ}

theorem Built.mono (H : Built h node Done tree)
    (hle : ∀ e w, e ≤ h → w < 2 ^ e → Done' e w → Done e w) : Built h node Done' tree :=
  ⟨H.length, fun e w he hw hdone => H.value e w he hw (hle e w he hw hdone)⟩

theorem Built.length_block (H : Built h node Done tree) (he : e ≤ h) (hw : w < 2 ^ e) :
    243 * (preorder h e w + 1) ≤ tree.length := by
  have hlt := preorder_lt he hw
  have hlength := H.length
  omega

/-- One more position: the others keep their values, since they have other numbers. -/
theorem Built.blit (H : Built h node Done tree) (he : e ≤ h) (hw : w < 2 ^ e)
    (hlength : (node (h - e) w).length = 243) :
    Built h node (fun e' w' => Done e' w' ∨ e' = e ∧ w' = w)
      (blit tree (243 * preorder h e w) (node (h - e) w)) := by
  have hroom := H.length_block he hw
  refine ⟨?_, fun e' w' he' hw' hdone => ?_⟩
  · rw [Entangled.length_blit (by omega), H.length]
  · rw [block_blit hlength hroom]
    split_ifs with heq
    · obtain ⟨rfl, rfl⟩ := preorder_injective he' hw' he hw heq
      rfl
    · rcases hdone with hdone | ⟨rfl, rfl⟩
      · exact H.value e' w' he' hw' hdone
      · exact absurd rfl heq

end Built

section Create

variable {σ : Type} {undef : ℕ → ℤ} {C : Curl σ} {h e w m : ℕ} {node : ℕ → ℕ → List ℤ}
variable {Done : ℕ → ℕ → Prop} {tree seed siblings : List ℤ} {offset : Int64} {security : ℕ}

theorem length_leafAddress (index : Int64) : (leafAddress C seed index security).length = 243 :=
  C.length_squeeze _ _

theorem leafFrom_reset (index : Int64) :
    leafFrom C seed index security C.reset = (leafAddress C seed index security, C.reset) := rfl

/-- The leaves, from the last index down. -/
def leafAt (C : Curl σ) (seed : List ℤ) (offset : Int64) (security d : ℕ) (p : ℕ) : List ℤ :=
  leafAddress C seed (offset + Int64.ofNat (merkleLeafIndex p (2 ^ d))) security

/-- The hashes of the tree: so many levels above the leaves, at this place. -/
def treeHash (C : Curl σ) (seed : List ℤ) (offset : Int64) (security d : ℕ) : ℕ → ℕ → List ℤ :=
  nodeOf (combine C) (leafAt C seed offset security d)

theorem length_treeHash (k w : ℕ) : (treeHash C seed offset security h k w).length = 243 := by
  rcases k with _ | k
  · exact length_leafAddress _
  · exact C.length_squeeze _ _

theorem foldl_createLeaf (hh : h < 30) (hm : m ≤ 2 ^ h)
    (H : Built h (treeHash C seed offset security h) (fun _ _ => False) tree) :
    ∃ tree', (List.range m).foldl (createLeaf undef C (2 ^ h) seed offset security h)
        (tree, C.reset) = (tree', C.reset) ∧
      Built h (treeHash C seed offset security h) (fun e w => e = h ∧ w < m) tree' := by
  induction m with
  | zero => exact ⟨tree, rfl, H.mono fun _ _ _ _ hdone => absurd hdone.2 (Nat.not_lt_zero _)⟩
  | succ m ih =>
    obtain ⟨tree', heq, H'⟩ := ih (by omega)
    refine ⟨blit tree' (243 * preorder h h m) (treeHash C seed offset security h (h - h) m), ?_,
      (H'.blit le_rfl (by omega) (length_treeHash _ _)).mono ?_⟩
    · rw [List.range_succ, List.foldl_append, heq, List.foldl_cons, List.foldl_nil, createLeaf,
        leafFrom_reset, merkleNodeIndex_eq hh le_rfl (by omega), Nat.sub_self]
      rfl
    · rintro e w - - ⟨rfl, hw⟩
      by_cases hlast : w = m
      · exact Or.inr ⟨rfl, hlast⟩
      · exact Or.inl ⟨rfl, by omega⟩

/-- Two neighbors are hashed into the place above them. -/
theorem hashPair_eq (hh : h < 30) (he : e < h) (hw : w < 2 ^ e)
    (H : Built h (treeHash C seed offset security h) Done tree)
    (hleft : Done (e + 1) (2 * w)) (hright : Done (e + 1) (2 * w + 1)) :
    hashPair undef C h (e + 1) (2 ^ (e + 1)) (tree, C.reset) w =
      (blit tree (243 * preorder h e w) (treeHash C seed offset security h (h - e) w),
        C.reset) := by
  have hpow : 2 ^ (e + 1) = 2 * 2 ^ e := by ring
  have hvalue : treeHash C seed offset security h (h - e) w =
      combine C (treeHash C seed offset security h (h - (e + 1)) (2 * w))
        (treeHash C seed offset security h (h - (e + 1)) (2 * w + 1)) := by
    rw [show h - e = h - (e + 1) + 1 by omega]
    rfl
  simp only [hashPair]
  rw [if_pos (by omega), Nat.add_sub_cancel, Nat.mul_div_cancel_left w (by decide),
    merkleNodeIndex_eq (w := 2 * w) hh (by omega) (by omega),
    merkleNodeIndex_eq (w := 2 * w + 1) hh (by omega) (by omega),
    merkleNodeIndex_eq hh (by omega) hw, H.value _ _ (by omega) (by omega) hleft,
    H.value _ _ (by omega) (by omega) hright, hvalue]
  rfl

theorem foldl_hashPair (hh : h < 30) (he : e < h) (hm : m ≤ 2 ^ e)
    (H : Built h (treeHash C seed offset security h) (fun e' _ => e + 1 ≤ e') tree) :
    ∃ tree', (List.range m).foldl (hashPair undef C h (e + 1) (2 ^ (e + 1))) (tree, C.reset) =
        (tree', C.reset) ∧
      Built h (treeHash C seed offset security h)
        (fun e' w' => e + 1 ≤ e' ∨ e' = e ∧ w' < m) tree' := by
  induction m with
  | zero =>
    refine ⟨tree, rfl, H.mono fun e' w' _ _ hdone => ?_⟩
    rcases hdone with hdone | ⟨-, hdone⟩
    · exact hdone
    · exact absurd hdone (Nat.not_lt_zero _)
  | succ m ih =>
    obtain ⟨tree', heq, H'⟩ := ih (by omega)
    refine ⟨_, ?_, (H'.blit he.le (show m < 2 ^ e by omega) (length_treeHash _ _)).mono ?_⟩
    · rw [List.range_succ, List.foldl_append, heq, List.foldl_cons, List.foldl_nil]
      exact hashPair_eq hh he (by omega) H' (Or.inl le_rfl) (Or.inl le_rfl)
    · rintro e' w' - - (hdone | ⟨rfl, hw⟩)
      · exact Or.inl (Or.inl hdone)
      · by_cases hlast : w' = m
        · exact Or.inr ⟨rfl, hlast⟩
        · exact Or.inl (Or.inr ⟨rfl, by omega⟩)

theorem hashTree_built (hh : h < 30) (he : e ≤ h)
    (H : Built h (treeHash C seed offset security h) (fun e' _ => e ≤ e') tree) :
    ∃ tree', hashTree undef C h e (2 ^ e) (tree, C.reset) = (tree', C.reset) ∧
      Built h (treeHash C seed offset security h) (fun _ _ => True) tree' := by
  induction e generalizing tree with
  | zero => exact ⟨tree, rfl, H.mono fun _ _ _ _ _ => Nat.zero_le _⟩
  | succ e ih =>
    have hhalf : (2 ^ (e + 1) + 1) / 2 = 2 ^ e := by
      rw [pow_succ]
      omega
    obtain ⟨tree', heq, H'⟩ := @foldl_hashPair σ undef C h e _ tree seed offset security
      hh (by omega) le_rfl H
    obtain ⟨tree'', heq', H''⟩ := @ih tree' (by omega) (H'.mono fun e' w' _ hw' he' => by
      rcases Nat.lt_or_ge e e' with hlt | hge
      · exact Or.inl hlt
      · obtain rfl : e' = e := by omega
        exact Or.inr ⟨rfl, hw'⟩)
    refine ⟨tree'', ?_, H''⟩
    rw [hashTree, hashLevel, hhalf, heq, heq']

/-- **What `merkle_create` makes**: the hash of what is below it, at the number of each node. -/
theorem merkleCreate_built (hh : h < 30) {fuel : ℕ} (hfuel : h < fuel)
    (hlength : tree.length = 243 * merkleSize (2 ^ h)) :
    ∃ tree', merkleCreate undef C fuel tree (2 ^ h) seed offset security C.reset =
        some (0, tree', C.reset) ∧
      Built h (treeHash C seed offset security h) (fun _ _ => True) tree' := by
  rw [merkleSize_two_pow (by omega)] at hlength
  obtain ⟨leaves, heq, H⟩ := @foldl_createLeaf σ undef C h _ tree seed offset security hh
    le_rfl
    (show Built h (treeHash C seed offset security h) _ tree from
      ⟨hlength, fun _ _ _ _ hdone => absurd hdone id⟩)
  obtain ⟨tree', heq', H'⟩ := @hashTree_built σ undef C h h leaves seed offset security hh
    le_rfl
    (H.mono fun e w he hw hge => by
      obtain rfl : e = h := by omega
      exact ⟨rfl, hw⟩)
  refine ⟨tree', ?_, H'⟩
  rw [merkleCreate, if_neg (by simp), merkleSize_two_pow (by omega), merkleDepth_two_pow hh hfuel]
  simp only [Nat.add_sub_cancel, heq, heq']

end Create

/-! ## Branches -/

section Branch

variable {σ : Type} {undef : ℕ → ℤ} {C : Curl σ} {h i s k : ℕ} {node : ℕ → ℕ → List ℤ}
variable {tree siblings seed : List ℤ} {offset : Int64} {security leafIndex : ℕ}

theorem sibling_lt {e : ℕ} (hs : s < 2 ^ (e + 1)) : sibling s < 2 ^ (e + 1) := by
  rw [pow_succ] at hs ⊢
  rw [sibling]
  split_ifs with hodd <;> omega

theorem sibling_div (s : ℕ) : sibling s / 2 = s / 2 := by
  rw [sibling]
  split_ifs with hodd <;> omega

/-- The loop fills in the hashes next to the way up, and leaves what it has filled in. -/
theorem block_branchLoop (hh : h < 30) (H : Built h node (fun _ _ => True) tree)
    (hnode : ∀ k w, (node k w).length = 243) {e : ℕ} (hi : i + e = h) (hs : s < 2 ^ e)
    (hlength : siblings.length = 243 * h) :
    block 243 (branchLoop undef tree (243 * (2 ^ (h + 1) - 1)) (h + 1) e i s siblings) k =
      if i ≤ k ∧ k < h then node k (sibling (s / 2 ^ (k - i))) else block 243 siblings k := by
  induction e generalizing i s siblings with
  | zero =>
    rw [if_neg (by omega)]
    rfl
  | succ e ih =>
    have hsibling := sibling_lt hs
    have hlt := preorder_lt (show e + 1 ≤ h by omega) hsibling
    have hvalue : (tree.drop (243 * preorder h (e + 1) (sibling s))).take 243 =
        node i (sibling s) := by
      rw [show i = h - (e + 1) by omega]
      exact H.value _ _ (by omega) hsibling trivial
    have hfill : branchLoop undef tree (243 * (2 ^ (h + 1) - 1)) (h + 1) (e + 1) i s siblings =
        branchLoop undef tree (243 * (2 ^ (h + 1) - 1)) (h + 1) e (i + 1) (s / 2)
          (blit siblings (243 * i) (node i (sibling s))) := by
      rw [branchLoop]
      change branchLoop undef tree _ (h + 1) e (i + 1) (sibling s / 2) (blit siblings (243 * i)
        (if _ ≤ 243 * merkleNodeIndex undef (e + 1) (sibling s) (h + 1 - 1) then _
          else (tree.drop (243 * merkleNodeIndex undef (e + 1) (sibling s) (h + 1 - 1))).take
            243)) = _
      rw [Nat.add_sub_cancel, merkleNodeIndex_eq hh (by omega) hsibling, if_neg (by omega),
        hvalue, sibling_div]
    rw [pow_succ] at hs
    have hfit : 243 * (i + 1) ≤ siblings.length := by omega
    rw [hfill, ih (by omega) (by omega)
      (by rw [length_blit (by rw [hnode]; omega), hlength]), block_blit (hnode _ _) hfit]
    rcases Nat.lt_trichotomy k i with hk | rfl | hk
    · rw [if_neg (by omega), if_neg (by omega), if_neg (by omega)]
    · rw [if_neg (by omega), if_pos rfl, if_pos (by omega), Nat.sub_self, pow_zero, Nat.div_one]
    · rw [if_neg (show ¬k = i by omega)]
      by_cases hkh : k < h
      · rw [if_pos (by omega), if_pos (by omega), Nat.div_div_eq_div_mul, ← pow_succ',
          show k - (i + 1) + 1 = k - i by omega]
      · rw [if_neg (by omega), if_neg (by omega)]

/-- **What `merkle_branch` returns.** -/
theorem merkleBranch_built (hh : h < 30) {fuel : ℕ} (hfuel : h < fuel)
    (H : Built h node (fun _ _ => True) tree) (hnode : ∀ k w, (node k w).length = 243)
    (hlength : siblings.length = 243 * h) (hleaf : leafIndex < 2 ^ h) :
    ∃ siblings', merkleBranch undef fuel (some tree) (some siblings) (243 * merkleSize (2 ^ h))
        (h + 1) leafIndex (2 ^ h) = some (0, some siblings') ∧
      ∀ k < h, block 243 siblings' k =
        node k (sibling (merkleLeafIndex leafIndex (2 ^ h) / 2 ^ k)) := by
  have hlt := preorder_lt le_rfl hleaf
  refine ⟨branchLoop undef tree (243 * (2 ^ (h + 1) - 1)) (h + 1) h 0
    (merkleLeafIndex leafIndex (2 ^ h)) siblings, ?_, fun k hk => ?_⟩
  · rw [merkleSize_two_pow (by omega)]
    simp only [merkleBranch]
    rw [Nat.add_sub_cancel, merkleNodeIndex_eq hh le_rfl hleaf, if_neg (by omega),
      Nat.mul_div_cancel_left _ (by decide), merkleDepth_two_pow hh hfuel]
    simp only [lt_irrefl, if_false]
  · rw [block_branchLoop hh H hnode (Nat.zero_add h)
      (by rw [merkleLeafIndex]; omega) hlength, if_pos ⟨Nat.zero_le k, hk⟩, Nat.sub_zero]

/-- A leaf's index has a bit where its place, counted from the other end, has none. -/
theorem testBit_leafIndex (hleaf : leafIndex < 2 ^ h) (hk : k < h) :
    leafIndex.testBit k = true ↔ merkleLeafIndex leafIndex (2 ^ h) / 2 ^ k % 2 ≠ 1 := by
  have hbit := Nat.testBit_two_pow_sub_succ hleaf k
  rw [show 2 ^ h - (leafIndex + 1) = merkleLeafIndex leafIndex (2 ^ h) by
    rw [merkleLeafIndex]; omega, decide_eq_true hk, Bool.true_and] at hbit
  have hparity : (merkleLeafIndex leafIndex (2 ^ h)).testBit k =
      decide (merkleLeafIndex leafIndex (2 ^ h) / 2 ^ k % 2 = 1) := Nat.testBit_eq_decide_div_mod_eq
  rw [hbit] at hparity
  rw [← Bool.not_not (leafIndex.testBit k), hparity, Bool.not_eq_true', decide_eq_false_iff_not]

/-- **`merkle_root` climbs.** With the hashes next to the way up it goes from hash to hash. -/
theorem merkleRoot_eq (hleaf : leafIndex < 2 ^ h) (hk : k ≤ h)
    (hsiblings : ∀ j < h, block 243 siblings j =
      treeHash C seed offset security h j
        (sibling (merkleLeafIndex leafIndex (2 ^ h) / 2 ^ j))) :
    merkleRoot C (treeHash C seed offset security h 0 (merkleLeafIndex leafIndex (2 ^ h)))
        siblings k leafIndex C.reset =
      (treeHash C seed offset security h k (merkleLeafIndex leafIndex (2 ^ h) / 2 ^ k),
        C.reset) := by
  induction k with
  | zero =>
    rw [pow_zero, Nat.div_one]
    rfl
  | succ k ih =>
    have hclimb := climb_nodeOf (combine C) (leafAt C seed offset security h) k
      (merkleLeafIndex leafIndex (2 ^ h) / 2 ^ k)
    rw [Nat.div_div_eq_div_mul, ← pow_succ] at hclimb
    have ih := ih (by omega)
    rw [merkleRoot] at ih ⊢
    rw [List.range_succ, List.foldl_append, ih, List.foldl_cons, List.foldl_nil,
      hsiblings k (by omega)]
    simp only [treeHash] at hclimb ⊢
    rw [← hclimb, climb]
    -- a bit of the index says that the hash is a left one
    by_cases hbit : leafIndex.testBit k
    · rw [if_pos hbit, if_neg ((testBit_leafIndex hleaf (by omega)).mp hbit)]
      rfl
    · rw [if_neg hbit, if_pos (by
        by_contra hne
        exact hbit ((testBit_leafIndex hleaf (by omega)).mpr hne))]
      rfl

end Branch

/-! ## Where the numbers hold -/

variable {undef : ℕ → ℤ} {d : ℕ}

theorem sound_of_le (hd : d ≤ 29) : Sound undef d where
  index_lt e w he hw := by
    rw [merkleNodeIndex_eq (by omega) he hw, merkleSize_two_pow (by omega)]
    exact preorder_lt he hw
  index_inj e w e' w' he hw he' hw' heq := by
    rw [merkleNodeIndex_eq (by omega) he hw, merkleNodeIndex_eq (by omega) he' hw'] at heq
    exact preorder_injective he hw he' hw' heq
  index_onto k hk := by
    rw [merkleSize_two_pow (by omega)] at hk
    obtain ⟨e, w, he, hw, hnumber⟩ := exists_preorder hk
    exact ⟨e, w, he, hw, by rw [merkleNodeIndex_eq (by omega) he hw, hnumber]⟩
  root σ C tree siblings seed offset security leafIndex _ htree hlength hleaf := by
    have hheight : d < 30 := by omega
    obtain ⟨tree', hcreate, H⟩ := @merkleCreate_built σ undef C d tree seed offset security
      hheight (d + 1) (Nat.lt_succ_self d) htree
    obtain ⟨siblings', hbranch, hblocks⟩ := @merkleBranch_built undef d _ tree' siblings leafIndex
      hheight (d + 1) (Nat.lt_succ_self d) H length_treeHash hlength hleaf
    refine ⟨d + 1, tree', siblings', hcreate, hbranch, ?_⟩
    have hroot := merkleRoot_eq hleaf le_rfl hblocks
    have htop := H.value 0 0 (Nat.zero_le d) (by decide) trivial
    have hback : merkleLeafIndex (merkleLeafIndex leafIndex (2 ^ d)) (2 ^ d) = leafIndex := by
      rw [merkleLeafIndex, merkleLeafIndex]
      omega
    rw [preorder_zero, Nat.sub_zero] at htop
    rw [htop]
    rw [Nat.div_eq_of_lt (by rw [merkleLeafIndex]; omega)] at hroot
    simpa only [treeHash, nodeOf, leafAt, hback] using hroot

/-- Where no depth is deep enough for the size, `merkle_depth` does not return. -/
theorem not_sound (hd : d < 64)
    (hshort : ∀ depth, binaryTreeSize undef 0 depth < 2 ^ (d + 1) - 1) : ¬ Sound undef d := by
  intro H
  have hloop : ∀ fuel depth, merkleDepthLoop undef (2 ^ (d + 1) - 1) fuel depth = none := by
    intro fuel
    induction fuel with
    | zero => exact fun _ => rfl
    | succ fuel ih =>
      intro depth
      rw [merkleDepthLoop, if_pos (hshort depth), ih]
  obtain ⟨fuel, tree', -, hcreate, -⟩ := H.root Unit
    ⟨(), fun _ _ => (), fun _ n => (List.replicate n 0, ()), fun _ n => List.length_replicate⟩
    (List.replicate (243 * merkleSize (2 ^ d)) 0) (List.replicate (243 * d) 0) [] 0 1 0 le_rfl
    List.length_replicate List.length_replicate (Nat.two_pow_pos d)
  rw [merkleCreate, if_neg (by simp), merkleDepth, merkleSize_two_pow hd, hloop] at hcreate
  exact Option.some_ne_none _ hcreate.symm

/-- **The tree is sound exactly up to `2 ^ 29` leaves**, whatever a shift out of range gives. -/
theorem sound_iff (hd : d < 64) : (∀ undef, Sound undef d) ↔ d ≤ 29 := by
  constructor
  · intro H
    by_contra hlarge
    refine not_sound hd (fun depth => ?_) (H fun _ => 1)
    have hpow := Nat.pow_le_pow_right (show 0 < 2 by decide) (show 31 ≤ d + 1 by omega)
    rw [binaryTreeSize, Nat.add_zero]
    rcases Nat.lt_or_ge (depth + 1) 31 with hin | hout
    · have hlow := Nat.pow_le_pow_right (show 0 < 2 by decide) (show depth + 1 ≤ 30 by omega)
      rw [toSize_oneShl_sub hin]
      omega
    · rw [oneShl, if_neg (by omega), show toSize (1 - 1) = 0 from rfl]
      omega
  · exact fun hsmall undef => sound_of_le hsmall

theorem sound_iff_coordinator : (∀ undef, Sound undef 16) ↔ 16 ≤ 29 :=
  sound_iff (by decide)

/-- With `2 ^ 31` leaves, where a processor takes the count of a shift modulo 32. -/
theorem not_sound_masked : ¬ Sound (fun k => 2 ^ (k % 32)) 31 := by
  refine not_sound (by decide) fun depth => ?_
  have hshift : oneShl (fun k => 2 ^ (k % 32)) (depth + 1) = 2 ^ ((depth + 1) % 32) := by
    rw [oneShl]
    split_ifs with hin
    · rw [Nat.mod_eq_of_lt (by omega)]
    · rfl
  have hle : (2 : ℤ) ^ ((depth + 1) % 32) ≤ 2 ^ 31 :=
    pow_le_pow_right₀ (by decide) (by omega)
  have hpos : (1 : ℤ) ≤ 2 ^ ((depth + 1) % 32) := one_le_pow₀ (by decide)
  rw [binaryTreeSize, Nat.add_zero, hshift, toSize]
  omega

end Merkle

end Entangled
