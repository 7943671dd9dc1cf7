import Entangled.Common.PerfectTree
import Entangled.Mam.Wots
/-!
# Merkle signatures

The public keys of one-time signatures are the leaves of a hash tree whose root is the public key
for all of them. A signature tells which key it was made with, is a one-time signature, and goes on
with the authentication path, the hashes met on the way to the root.

The library is built with one of two ways to have the paths at hand; `MerkleMode` is what they have
to provide. `classic` keeps the whole tree.
-/

namespace Entangled

namespace Mam

open Spongos PerfectTree

/-- `MAM_MSS_SKN_SIZE`. -/
def mssSknSize : ℕ := 18

/-- `MAM_MSS_MT_HASH_SIZE`. -/
def mssMtHashSize : ℕ := 243

/-- `MAM_MSS_MAX_D`. -/
def mssMaxD : ℕ := 20

/-- `MAM_MSS_SIG_SIZE`. -/
def mssSigSize (height : ℕ) : ℕ := mssSknSize + wotsPrivateKeySize + mssMtHashSize * height

/-- `MAM_MSS_MAX_SKN`. -/
def mssMaxSkn (height : ℕ) : ℕ := 2 ^ height - 1

/-- `mss_hash2`. -/
def mssHash2 (T : Troika) (left right : List Trit) : List Trit := hashn T [left, right] mssMtHashSize

/-- How the tree is kept: what `mam_mss_gen` leaves and the root, `mam_mss_auth_path`, and what
`mam_mss_next` does to it while the key is `skn`. A tree that is ready for a key has the path of the
key at hand. -/
structure MerkleMode where
  Tree : Type
  gen : Troika → (ℕ → List Trit) → ℕ → Tree × List Trit
  authPath : Tree → ℕ → ℕ → List Trit
  next : Troika → (ℕ → List Trit) → ℕ → ℕ → Tree → Tree
  Ready : Troika → (ℕ → List Trit) → ℕ → ℕ → Tree → Prop
  gen_root : ∀ T leaf height, (gen T leaf height).2 = nodeOf (mssHash2 T) leaf height 0
  ready_gen : ∀ T leaf height, Ready T leaf height 0 (gen T leaf height).1
  ready_next : ∀ T leaf height skn tree, skn + 1 < 2 ^ height → Ready T leaf height skn tree →
    Ready T leaf height (skn + 1) (next T leaf height skn tree)
  authPath_ready : ∀ T leaf height skn tree, skn < 2 ^ height → Ready T leaf height skn tree →
    authPath tree height skn = (path (mssHash2 T) leaf height 0 skn).flatten

/-! ## The whole tree -/

namespace Classic

/-- `mss_mt_node_t_trits`. -/
def node (mt : List (List Trit)) (height i : ℕ) : List Trit := mt.getD (2 ^ height + i - 1) []

def setNode (mt : List (List Trit)) (height i : ℕ) (hash : List Trit) : List (List Trit) :=
  mt.set (2 ^ height + i - 1) hash

/-- A level of `mam_mss_gen`: each node from the two below it. -/
def genLevel (T : Troika) (mt : List (List Trit)) (height : ℕ) : List (List Trit) :=
  (List.range (2 ^ height)).foldl (fun mt i =>
    setNode mt height i (mssHash2 T (node mt (height + 1) (2 * i)) (node mt (height + 1) (2 * i + 1))))
    mt

/-- `mam_mss_gen`. -/
def gen (T : Troika) (leaf : ℕ → List Trit) (height : ℕ) : List (List Trit) × List Trit :=
  let mt := (List.range (2 ^ height)).foldl (fun mt i => setNode mt height i (leaf i))
    (List.replicate (2 * 2 ^ height - 1) [])
  let mt := (List.range height).reverse.foldl (genLevel T) mt
  (mt, node mt 0 0)

/-- `mam_mss_auth_path`. -/
def authPath (mt : List (List Trit)) : ℕ → ℕ → List Trit
  | 0, _ => []
  | height + 1, skn =>
    node mt (height + 1) (if skn % 2 = 0 then skn + 1 else skn - 1) ++ authPath mt height (skn / 2)

section

variable {T : Troika} {mt : List (List Trit)} {leaf : ℕ → List Trit}

theorem length_setNode (d i : ℕ) (hash : List Trit) :
    (setNode mt d i hash).length = mt.length := List.length_set

/-- What a loop over a level leaves: the nodes of the level, and the rest as it was. -/
theorem fill_level {H d n : ℕ} {f : List (List Trit) → ℕ → List Trit} {v : ℕ → List Trit}
    (hmt : mt.length = 2 * 2 ^ H - 1) (hd : d ≤ H) (hn : n ≤ 2 ^ d)
    (hf : ∀ mt' i, (∀ j, 2 ^ (d + 1) - 1 ≤ j → mt'.getD j [] = mt.getD j []) → f mt' i = v i) :
    let mt' := (List.range n).foldl (fun mt i => setNode mt d i (f mt i)) mt
    mt'.length = mt.length ∧ (∀ i < n, node mt' d i = v i) ∧
      ∀ j, (j < 2 ^ d - 1 ∨ 2 ^ d + n - 1 ≤ j) → mt'.getD j [] = mt.getD j [] := by
  have hpow : 2 ^ d ≤ 2 ^ H := Nat.pow_le_pow_right (by decide) hd
  have hpos := Nat.two_pow_pos d
  induction n with
  | zero => exact ⟨rfl, fun i hi => absurd hi (Nat.not_lt_zero i), fun j _ => rfl⟩
  | succ n ih =>
    obtain ⟨hlen, hset, hrest⟩ := ih (by omega)
    rw [List.range_succ, List.foldl_append]
    generalize (List.range n).foldl (fun mt i => setNode mt d i (f mt i)) mt = mt₁ at *
    have hval : f mt₁ n = v n := hf mt₁ n fun j hj => hrest j (by
      rw [pow_succ] at hj
      omega)
    have hget : ∀ j, (setNode mt₁ d n (f mt₁ n)).getD j [] =
        if j = 2 ^ d + n - 1 then v n else mt₁.getD j [] := by
      intro j
      rw [setNode, List.getD_eq_getElem?_getD, List.getElem?_set, hval]
      by_cases heq : j = 2 ^ d + n - 1
      · rw [if_pos heq.symm, if_pos (by omega), if_pos heq]
        rfl
      · rw [if_neg (Ne.symm heq), if_neg heq]
        exact List.getD_eq_getElem?_getD.symm
    refine ⟨(length_setNode _ _ _).trans hlen, fun i hi => ?_, fun j hj => ?_⟩
    · show (setNode mt₁ d n (f mt₁ n)).getD (2 ^ d + i - 1) [] = v i
      rw [hget]
      split_ifs with heq
      · rw [show i = n by omega]
      · exact hset i (by omega)
    · show (setNode mt₁ d n (f mt₁ n)).getD j [] = _
      rw [hget, if_neg (by omega)]
      exact hrest j (by omega)

/-- The nodes from depth `h` on are those of the tree. -/
def Filled (T : Troika) (leaf : ℕ → List Trit) (H h : ℕ) (mt : List (List Trit)) : Prop :=
  mt.length = 2 * 2 ^ H - 1 ∧
    ∀ d, h ≤ d → d ≤ H → ∀ i < 2 ^ d, node mt d i = nodeOf (mssHash2 T) leaf (H - d) i

/-- One level up. -/
theorem filled_genLevel {H h : ℕ} (hh : h + 1 ≤ H) (hmt : Filled T leaf H (h + 1) mt) :
    Filled T leaf H h (genLevel T mt h) := by
  obtain ⟨hlen, hnodes⟩ := hmt
  obtain ⟨hlen', hset, hrest⟩ := fill_level (n := 2 ^ h) (d := h)
    (f := fun mt i => mssHash2 T (node mt (h + 1) (2 * i)) (node mt (h + 1) (2 * i + 1)))
    (v := fun i => mssHash2 T (node mt (h + 1) (2 * i)) (node mt (h + 1) (2 * i + 1)))
    hlen (by omega) le_rfl (by
      intro mt' i hsame
      have hpos := Nat.two_pow_pos (h + 1)
      have hnode : ∀ k, node mt' (h + 1) k = node mt (h + 1) k := fun k => hsame _ (by omega)
      simp only [hnode])
  refine ⟨hlen'.trans hlen, fun d hd hdH i hi => ?_⟩
  rcases Nat.lt_or_ge h d with hlt | hge
  · have hpow : 2 ^ (h + 1) ≤ 2 ^ d := Nat.pow_le_pow_right (by decide) hlt
    have hpos := Nat.two_pow_pos h
    rw [pow_succ] at hpow
    exact (hrest _ (by omega)).trans (hnodes d hlt hdH i hi)
  · obtain rfl : d = h := by omega
    have hlo : 2 * i < 2 ^ (d + 1) := by rw [pow_succ]; omega
    have hhi : 2 * i + 1 < 2 ^ (d + 1) := by rw [pow_succ]; omega
    refine (hset i hi).trans ?_
    rw [hnodes (d + 1) le_rfl hh _ hlo, hnodes (d + 1) le_rfl hh _ hhi,
      show H - d = H - (d + 1) + 1 by omega, nodeOf]

theorem filled_genLevels {H h : ℕ} (hh : h ≤ H) (hmt : Filled T leaf H h mt) :
    Filled T leaf H 0 ((List.range h).reverse.foldl (genLevel T) mt) := by
  induction h generalizing mt with
  | zero => exact hmt
  | succ h ih =>
    rw [List.range_succ, List.reverse_append, List.reverse_singleton, List.foldl_append]
    exact ih (by omega) (filled_genLevel hh hmt)

theorem filled_gen (T : Troika) (leaf : ℕ → List Trit) (H : ℕ) :
    Filled T leaf H 0 (gen T leaf H).1 := by
  refine filled_genLevels le_rfl ?_
  have hsize : (List.replicate (2 * 2 ^ H - 1) ([] : List Trit)).length = 2 * 2 ^ H - 1 :=
    List.length_replicate
  obtain ⟨hlen, hset, -⟩ := fill_level (n := 2 ^ H) (d := H) (f := fun _ i => leaf i) (v := leaf)
    hsize le_rfl le_rfl (fun _ _ _ => rfl)
  refine ⟨hlen.trans hsize, fun d hd hdH i hi => ?_⟩
  obtain rfl : d = H := by omega
  rw [Nat.sub_self]
  exact hset i hi

theorem authPath_filled {H d skn : ℕ} (hd : d ≤ H) (hmt : Filled T leaf H 0 mt)
    (hskn : skn < 2 ^ d) :
    authPath mt d skn = (path (mssHash2 T) leaf d (H - d) skn).flatten := by
  induction d generalizing skn with
  | zero => rfl
  | succ d ih =>
    rw [pow_succ] at hskn
    have hnext : (if skn % 2 = 0 then skn + 1 else skn - 1) = sibling skn := by
      rw [sibling]
      split_ifs <;> omega
    have hlt : sibling skn < 2 ^ (d + 1) := by
      rw [sibling, pow_succ]
      split_ifs <;> omega
    rw [authPath, hnext, hmt.2 (d + 1) (Nat.zero_le _) hd _ hlt, path, List.flatten_cons,
      ih (by omega) (by omega), show H - (d + 1) + 1 = H - d by omega]

end

end Classic

/-- `mss_classic.c`. -/
def classic : MerkleMode where
  Tree := List (List Trit)
  gen := Classic.gen
  authPath := Classic.authPath
  next _ _ _ _ mt := mt
  Ready T leaf height _ mt := Classic.Filled T leaf height 0 mt
  gen_root T leaf height := (Classic.filled_gen T leaf height).2 0 le_rfl (Nat.zero_le _) 0
    Nat.one_pos
  ready_gen := Classic.filled_gen
  ready_next _ _ _ _ _ _ hready := hready
  authPath_ready T leaf height skn mt hskn hready := by
    rw [Classic.authPath_filled le_rfl hready hskn, Nat.sub_self]

/-! ## Signing -/

/-- `mam_mss_t`. -/
structure Mss (M : MerkleMode) where
  height : ℕ
  skn : ℕ
  prng : List Trit
  nonces : List (List Trit)
  tree : M.Tree
  root : List Trit

section Sign

variable {M : MerkleMode} (T : Troika) (m : Mss M)

/-- `mam_wots_gen_sk5`, for the key `i`. -/
def mssPrivateKey (i : ℕ) : List Trit :=
  prngGen5 T m.prng 1 (m.nonces ++ [put18 i]) wotsPrivateKeySize

/-- `mss_mt_gen_leaf`. -/
def mssMtGenLeaf (i : ℕ) : List Trit := wotsGenPk T (mssPrivateKey T m i)

/-- `mam_mss_remaining_sks`. -/
def mssRemainingSks : ℕ :=
  if mssMaxSkn m.height < m.skn then 0 else mssMaxSkn m.height - m.skn + 1

/-- `mam_mss_skn`. -/
def mssSkn : List Trit := (put6 m.height).take 4 ++ (put18 m.skn).take 14

/-- `mam_mss_sign`. -/
def mssSign (hash : List Trit) : Except Error (List Trit) :=
  if mssRemainingSks m = 0 then .error .mssExhausted
  else
    .ok (mssSkn m ++ wotsSign T (mssPrivateKey T m m.skn) hash ++ M.authPath m.tree m.height m.skn)

/-- `mam_mss_next`. The mode that keeps the whole tree has nothing to do, and the other does nothing
at the last key. -/
def mssNext : Mss M :=
  if mssRemainingSks m = 0 then m
  else
    { m with
      tree :=
        if mssRemainingSks m ≠ 1 then M.next T (mssMtGenLeaf T m) m.height m.skn m.tree else m.tree
      skn := m.skn + 1 }

/-- `mam_mss_sign_and_next`. -/
def mssSignAndNext (hash : List Trit) : Except Error (List Trit) × Mss M :=
  match mssSign T m hash with
  | .ok sig => (.ok sig, mssNext T m)
  | .error e => (.error e, m)

end Sign

/-! ## Verifying -/

section Verify

variable (T : Troika)

/-- `mss_parse_skn`: the height, an `uint8_t`, and the number of the key, an `uint32_t`. -/
def mssParseSkn (trits : List Trit) : Option (ℕ × ℕ) :=
  let height := (get6 (trits.take 4 ++ List.replicate 14 Trit.zero) % 2 ^ 8).toNat
  let skn := (get18 (trits.drop 4 ++ List.replicate 4 Trit.zero) % 2 ^ 32).toNat
  if mssMaxD < height ∨ mssMaxSkn height < skn then none else some (height, skn)

/-- `mss_fold_auth_path`. -/
def mssFoldAuthPath (skn : ℕ) (authPath pk : List Trit) : List Trit :=
  if _h : authPath = [] then pk
  else
    mssFoldAuthPath (skn / 2) (authPath.drop mssMtHashSize)
      (climb (mssHash2 T) skn pk (authPath.take mssMtHashSize))
termination_by authPath.length
decreasing_by
  have hne := List.length_pos_iff.mpr _h
  have hpos : 0 < mssMtHashSize := by decide
  rw [List.length_drop]
  omega

/-- `mam_mss_verify`. -/
def mssVerify (hash sig pk : List Trit) : Bool :=
  if sig.length < mssSigSize 0 then false
  else
    match mssParseSkn (sig.take mssSknSize) with
    | none => false
    | some (height, skn) =>
      let sig := sig.drop mssSknSize
      if sig.length ≠ mssSigSize height - mssSknSize then false
      else
        let calculatedPk := wotsRecover T hash (sig.take wotsPrivateKeySize)
        mssFoldAuthPath T skn (sig.drop wotsPrivateKeySize) calculatedPk == pk

end Verify

/-! ## What is signed is verified -/

section

variable {T : Troika} {M : MerkleMode}

/-- A tree that is what `mam_mss_gen` and `mam_mss_next` make of it. -/
structure Mss.Sound (T : Troika) (m : Mss M) : Prop where
  height_le : m.height ≤ mssMaxD
  root_eq : m.root = nodeOf (mssHash2 T) (mssMtGenLeaf T m) m.height 0
  ready : m.skn < 2 ^ m.height → M.Ready T (mssMtGenLeaf T m) m.height m.skn m.tree

theorem mssRemainingSks_eq (m : Mss M) : mssRemainingSks m = 2 ^ m.height - m.skn := by
  have hpos := Nat.two_pow_pos m.height
  unfold mssRemainingSks mssMaxSkn
  split_ifs <;> omega

@[simp] theorem height_mssNext (m : Mss M) : (mssNext T m).height = m.height := by
  unfold mssNext
  split_ifs <;> rfl

@[simp] theorem root_mssNext (m : Mss M) : (mssNext T m).root = m.root := by
  unfold mssNext
  split_ifs <;> rfl

@[simp] theorem mssMtGenLeaf_mssNext (m : Mss M) :
    mssMtGenLeaf T (mssNext T m) = mssMtGenLeaf T m := by
  unfold mssNext
  split_ifs <;> rfl

theorem skn_mssNext {m : Mss M} (hleft : mssRemainingSks m ≠ 0) :
    (mssNext T m).skn = m.skn + 1 := by
  rw [mssNext, if_neg hleft]

/-- **Moving on to the next key** keeps the tree what it has to be. -/
theorem Mss.Sound.next {m : Mss M} (hm : m.Sound T) : (mssNext T m).Sound T where
  height_le := by rw [height_mssNext]; exact hm.height_le
  root_eq := by rw [root_mssNext, mssMtGenLeaf_mssNext, height_mssNext]; exact hm.root_eq
  ready := by
    rw [mssMtGenLeaf_mssNext, height_mssNext]
    intro hskn
    have hleft := mssRemainingSks_eq m
    by_cases hzero : mssRemainingSks m = 0
    · rw [mssNext, if_pos hzero] at hskn ⊢
      exact hm.ready hskn
    · rw [skn_mssNext hzero] at hskn ⊢
      rw [mssNext, if_neg hzero]
      dsimp only
      rw [if_pos (by omega)]
      exact M.ready_next _ _ _ _ _ hskn (hm.ready (by omega))

theorem length_mssPrivateKey (m : Mss M) (i : ℕ) :
    (mssPrivateKey T m i).length = wotsPrivateKeySize := length_prngGen5 _ _ _ _

theorem length_mssHash2 (left right : List Trit) :
    (mssHash2 T left right).length = mssMtHashSize := length_squeeze _ _

theorem length_mssMtGenLeaf (m : Mss M) (i : ℕ) :
    (mssMtGenLeaf T m i).length = mssMtHashSize := length_squeeze _ _

/-- The nodes of a tree over keys are hashes. -/
theorem length_nodeOf {leaf : ℕ → List Trit} (hleaf : ∀ i, (leaf i).length = mssMtHashSize)
    (k w : ℕ) : (nodeOf (mssHash2 T) leaf k w).length = mssMtHashSize := by
  cases k with
  | zero => exact hleaf w
  | succ k => exact length_mssHash2 _ _

theorem length_path {leaf : ℕ → List Trit} (hleaf : ∀ i, (leaf i).length = mssMtHashSize)
    (n k w : ℕ) : (path (mssHash2 T) leaf n k w).flatten.length = mssMtHashSize * n := by
  induction n generalizing k w with
  | zero => rfl
  | succ n ih =>
    rw [path, List.flatten_cons, List.length_append, length_nodeOf hleaf, ih]
    ring

/-- **A path leads up** from one node to the one above it. -/
theorem mssFoldAuthPath_path {leaf : ℕ → List Trit}
    (hleaf : ∀ i, (leaf i).length = mssMtHashSize) (n k w : ℕ) :
    mssFoldAuthPath T w (path (mssHash2 T) leaf n k w).flatten (nodeOf (mssHash2 T) leaf k w) =
      nodeOf (mssHash2 T) leaf (k + n) (w / 2 ^ n) := by
  induction n generalizing k w with
  | zero =>
    rw [path, List.flatten_nil, mssFoldAuthPath, dif_pos rfl, pow_zero, Nat.div_one]
    rfl
  | succ n ih =>
    have hnode := length_nodeOf (T := T) hleaf k (sibling w)
    have hne : nodeOf (mssHash2 T) leaf k (sibling w) ++
        (path (mssHash2 T) leaf n (k + 1) (w / 2)).flatten ≠ [] := by
      intro hnil
      have hlen := congrArg List.length hnil
      rw [List.length_append, hnode] at hlen
      simp [mssMtHashSize] at hlen
    rw [path, List.flatten_cons, mssFoldAuthPath, dif_neg hne, List.take_left' hnode,
      List.drop_left' hnode, climb_nodeOf, ih, Nat.div_div_eq_div_mul, ← pow_succ',
      show k + 1 + n = k + (n + 1) by omega]

/-- **The number of a key is read back**, with the height of the tree. -/
theorem mssParseSkn_mssSkn {m : Mss M} (hheight : m.height ≤ mssMaxD) (hskn : m.skn < 2 ^ m.height) :
    mssParseSkn (mssSkn m) = some (m.height, m.skn) := by
  have hpow : 2 ^ m.height ≤ 2 ^ 20 := Nat.pow_le_pow_right (by decide) hheight
  unfold mssMaxD at hheight
  have h4 : 2 * |(m.height : ℤ)| < 3 ^ 4 := by
    rw [Nat.abs_cast]
    omega
  have h14 : 2 * |(m.skn : ℤ)| < 3 ^ 14 := by
    rw [Nat.abs_cast]
    omega
  have h6 : put6 m.height = Trit.spell 4 m.height ++ List.replicate 2 .zero := by
    rw [put6_eq (by omega), ← Trit.spell_zero 2, ← Trit.spell_append h4, mul_zero, add_zero]
  have h18 : put18 m.skn = Trit.spell 14 m.skn ++ List.replicate 4 .zero := by
    rw [put18_eq (by omega), ← Trit.spell_zero 4, ← Trit.spell_append h14, mul_zero, add_zero]
  have hsplit : mssSkn m = Trit.spell 4 m.height ++ Trit.spell 14 m.skn := by
    rw [mssSkn, h6, h18, List.take_left' (Trit.length_spell _ _),
      List.take_left' (Trit.length_spell _ _)]
  have hget6 : get6 ((mssSkn m).take 4 ++ List.replicate 14 .zero) = m.height := by
    rw [hsplit, List.take_left' (Trit.length_spell _ _),
      show List.replicate 14 Trit.zero = List.replicate 2 .zero ++ List.replicate 12 .zero from rfl,
      ← List.append_assoc, ← h6]
    rw [get6_append (by rw [h6]; simp), put6_eq (by omega), Trit.value_spell (by omega)]
  have hget18 : get18 ((mssSkn m).drop 4 ++ List.replicate 4 .zero) = m.skn := by
    rw [hsplit, List.drop_left' (Trit.length_spell _ _), ← h18]
    have hput := get18_put18 (t := m.skn) (by omega) []
    rwa [List.append_nil] at hput
  have hfit : ¬ (mssMaxD < m.height ∨ mssMaxSkn m.height < m.skn) := by
    unfold mssMaxD mssMaxSkn
    omega
  have h8 : ((m.height : ℤ) % 2 ^ 8).toNat = m.height := by omega
  have h32 : ((m.skn : ℤ) % 2 ^ 32).toNat = m.skn := by omega
  simp only [mssParseSkn, hget6, hget18, h8, h32]
  rw [if_neg hfit]

/-- **What a sound tree signs is verified** under its root. -/
theorem mssVerify_mssSign {m : Mss M} (hm : m.Sound T) {hash sig : List Trit}
    (hsign : mssSign T m hash = .ok sig) :
    sig.length = mssSigSize m.height ∧ mssVerify T hash sig m.root = true := by
  have hsks := mssRemainingSks_eq m
  rw [mssSign] at hsign
  split_ifs at hsign with hzero
  have hskn : m.skn < 2 ^ m.height := by omega
  have hleaf := length_mssMtGenLeaf (T := T) m
  obtain rfl := Except.ok.inj hsign
  rw [M.authPath_ready _ _ _ _ _ hskn (hm.ready hskn)]
  have hwots : (wotsSign T (mssPrivateKey T m m.skn) hash).length = wotsPrivateKeySize :=
    length_wotsHashSignOrRecover .sign (length_mssPrivateKey m m.skn)
  have hpath := length_path (T := T) hleaf m.height 0 m.skn
  have hfirst : (mssSkn m).length = mssSknSize := rfl
  generalize hp : (path (mssHash2 T) (mssMtGenLeaf T m) m.height 0 m.skn).flatten = p at *
  generalize hw : wotsSign T (mssPrivateKey T m m.skn) hash = w at *
  have hlen : (mssSkn m ++ w ++ p).length = mssSigSize m.height := by
    rw [List.length_append, List.length_append, hfirst, hwots, hpath, mssSigSize]
  refine ⟨hlen, ?_⟩
  have hdrop : (mssSkn m ++ w ++ p).drop mssSknSize = w ++ p := by
    rw [List.append_assoc, List.drop_left' hfirst]
  have htake : (mssSkn m ++ w ++ p).take mssSknSize = mssSkn m := by
    rw [List.append_assoc, List.take_left' hfirst]
  have hrest : (w ++ p).length = mssSigSize m.height - mssSknSize := by
    rw [← hdrop, List.length_drop, hlen]
  have hsize : ¬ (mssSkn m ++ w ++ p).length < mssSigSize 0 := by
    rw [hlen, mssSigSize, mssSigSize]
    omega
  rw [mssVerify, if_neg hsize, htake, mssParseSkn_mssSkn hm.height_le hskn]
  simp only [hdrop, hrest, ne_eq, not_true_eq_false, if_false, beq_iff_eq]
  rw [List.take_left' hwots, List.drop_left' hwots, ← hw,
    wotsRecover_wotsSign (length_mssPrivateKey m m.skn), ← hp]
  have hfold := mssFoldAuthPath_path (T := T) hleaf m.height 0 m.skn
  rw [Nat.zero_add, Nat.div_eq_of_lt hskn] at hfold
  exact hfold.trans hm.root_eq.symm

end

end Mam

end Entangled
