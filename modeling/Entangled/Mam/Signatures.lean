import Entangled.Mam.Api
import Entangled.Mam.Traversal
/-!
# The signatures of a tree

What a tree signs depends on its keys, its height and the number of the key, and not on the way the
hashes are kept. The traversal therefore signs what the whole tree would, one key after another, as
long as there are keys.
-/

namespace Entangled

namespace Mam

open PerfectTree

section

variable (T : Troika) {M : MerkleMode}

/-- Calls of `mam_mss_sign_and_next`, one after the other, with what each of them gives. -/
def signAll : Mss M → List (List Trit) → List (Except Error (List Trit)) × Mss M
  | m, [] => ([], m)
  | m, hash :: hashes =>
    ((mssSignAndNext T m hash).1 :: (signAll (mssSignAndNext T m hash).2 hashes).1,
      (signAll (mssSignAndNext T m hash).2 hashes).2)

/-- The signature with key `k` of a tree. -/
def mssSignature (prng : List Trit) (nonces : List (List Trit)) (height k : ℕ) (hash : List Trit) :
    List Trit :=
  let privateKey (i : ℕ) := prngGen5 T prng 1 (nonces ++ [put18 i]) wotsPrivateKeySize
  (put6 height).take 4 ++ (put18 k).take 14 ++ wotsSign T (privateKey k) hash ++
    (path (mssHash2 T) (fun i => wotsGenPk T (privateKey i)) height 0 k).flatten

/-- What call `k` gives. -/
def signOutcome (prng : List Trit) (nonces : List (List Trit)) (height k : ℕ) (hash : List Trit) :
    Except Error (List Trit) :=
  if k < 2 ^ height then .ok (mssSignature T prng nonces height k hash) else .error .mssExhausted

variable {T} {m : Mss M} {hash : List Trit}

/-- A key signs as the tree says. -/
theorem mssSign_eq (hm : m.Sound T) (hskn : m.skn < 2 ^ m.height) :
    mssSign T m hash = .ok (mssSignature T m.prng m.nonces m.height m.skn hash) := by
  have hsks := mssRemainingSks_eq m
  rw [mssSign, if_neg (by omega), M.authPath_ready _ _ _ _ _ hskn (hm.ready hskn)]
  rfl

theorem prng_mssNext : (mssNext T m).prng = m.prng := by
  unfold mssNext
  split_ifs <;> rfl

theorem nonces_mssNext : (mssNext T m).nonces = m.nonces := by
  unfold mssNext
  split_ifs <;> rfl

/-- **A call** gives what the number of its key says, and moves on. -/
theorem mssSignAndNext_spec (hm : m.Sound T) (hskn : m.skn ≤ 2 ^ m.height) :
    (mssSignAndNext T m hash).1 = signOutcome T m.prng m.nonces m.height m.skn hash ∧
      (mssSignAndNext T m hash).2.Sound T ∧
      (mssSignAndNext T m hash).2.prng = m.prng ∧ (mssSignAndNext T m hash).2.nonces = m.nonces ∧
      (mssSignAndNext T m hash).2.height = m.height ∧
      (mssSignAndNext T m hash).2.skn = min (m.skn + 1) (2 ^ m.height) := by
  have hsks := mssRemainingSks_eq m
  rw [signOutcome]
  rcases Nat.lt_or_eq_of_le hskn with hlt | heq
  · rw [mssSignAndNext, mssSign_eq hm hlt, if_pos hlt]
    refine ⟨rfl, hm.next, prng_mssNext, nonces_mssNext, height_mssNext m, ?_⟩
    rw [skn_mssNext (by omega), min_eq_left hlt]
  · rw [mssSignAndNext, mssSign, if_pos (by omega), if_neg (by omega)]
    refine ⟨rfl, hm, rfl, rfl, rfl, ?_⟩
    rw [min_eq_right (by omega)]
    exact heq

/-- **A run of calls**, whatever way the hashes are kept. -/
theorem signAll_spec (hashes : List (List Trit)) (hm : m.Sound T) (hskn : m.skn ≤ 2 ^ m.height) :
    (signAll T m hashes).1.length = hashes.length ∧
      ∀ k hash, hashes[k]? = some hash → (signAll T m hashes).1[k]? =
        some (signOutcome T m.prng m.nonces m.height (m.skn + k) hash) := by
  induction hashes generalizing m with
  | nil => exact ⟨rfl, fun k hash hk => by simp at hk⟩
  | cons first hashes ih =>
    obtain ⟨hout, hm', hprng, hnonces, hheight, hskn'⟩ := @mssSignAndNext_spec T M m first hm hskn
    obtain ⟨hlen, hrest⟩ := ih hm' (by rw [hskn', hheight]; exact min_le_right _ _)
    refine ⟨congrArg (· + 1) hlen, fun k hash hk => ?_⟩
    rw [signAll]
    cases k with
    | zero =>
      obtain rfl : first = hash := Option.some.inj hk
      exact congrArg some hout
    | succ k =>
      refine (hrest k hash hk).trans ?_
      rw [hprng, hnonces, hheight, hskn', signOutcome, signOutcome]
      rcases Nat.lt_or_eq_of_le hskn with hlt | heq
      · rw [min_eq_left hlt, show m.skn + 1 + k = m.skn + (k + 1) by omega]
      · rw [min_eq_right (by omega), if_neg (by omega), if_neg (by omega)]

end

theorem length_skn (height k : ℤ) : ((put6 height).take 4 ++ (put18 k).take 14).length = mssSknSize :=
  rfl

/-- Every signature of a tree tells its key, and is verified under the root of the tree. -/
theorem mssVerify_mssSignature (T : Troika) {D k : ℕ} (hD : D ≤ mssMaxD) (hk : k < 2 ^ D)
    (prng : List Trit) (nonces : List (List Trit)) (hash : List Trit) :
    (mssSignature T prng nonces D k hash).length = mssSigSize D ∧
      mssParseSkn ((mssSignature T prng nonces D k hash).take mssSknSize) = some (D, k) ∧
      mssVerify T hash (mssSignature T prng nonces D k hash)
        (mssCreate T prng D nonces : Mss classic).root = true := by
  -- the whole tree is the same for every key
  have hm : ({ (mssCreate T prng D nonces : Mss classic) with skn := k }).Sound T :=
    { height_le := hD
      root_eq := classic.gen_root T _ D
      ready := fun _ => classic.ready_gen T _ D }
  obtain ⟨hlen, hverify⟩ := mssVerify_mssSign hm (@mssSign_eq T classic _ hash hm hk)
  refine ⟨hlen, ?_, hverify⟩
  have hskn := mssParseSkn_mssSkn hm.height_le hk
  rw [mssSkn] at hskn
  rw [mssSignature, List.append_assoc, List.take_left' (length_skn _ _)]
  exact hskn

section

variable {T : Troika} {m : Mss traversal} {hash : List Trit}

/-- No assertion fails and no stack is too small in a call. -/
theorem isSome_mssSignAndNext (hm : m.Sound T) (hsome : m.tree.isSome) :
    (mssSignAndNext T m hash).2.tree.isSome := by
  have hsks := mssRemainingSks_eq m
  rw [mssSignAndNext]
  by_cases hzero : mssRemainingSks m = 0
  · rw [mssSign, if_pos hzero]
    exact hsome
  · rw [mssSign, if_neg hzero]
    dsimp only
    rw [mssNext, if_neg hzero]
    dsimp only
    by_cases hone : mssRemainingSks m = 1
    · rw [if_neg (fun hne => hne hone)]
      exact hsome
    · rw [if_pos hone]
      obtain ⟨t, htree, -⟩ := traversal.ready_next T _ _ _ m.tree (by omega) (hm.ready (by omega))
      rw [htree]
      rfl

theorem isSome_signAll (hashes : List (List Trit)) (hm : m.Sound T) (hskn : m.skn ≤ 2 ^ m.height)
    (hsome : m.tree.isSome) : (signAll T m hashes).2.tree.isSome := by
  induction hashes generalizing m with
  | nil => exact hsome
  | cons hash hashes ih =>
    obtain ⟨-, hm', -, -, hheight, hskn'⟩ := @mssSignAndNext_spec T _ m hash hm hskn
    exact ih hm' (by rw [hskn', hheight]; exact min_le_right _ _) (isSome_mssSignAndNext hm hsome)

/-- **The traversal refines the whole tree.** For every height, every state of the generator, all
names and every sequence of hashes to sign, no assertion fails and no stack goes over what there is
for it; the root and everything that is signed are those of the whole tree; call `k` is signed with
key `k` and verified as long as there are keys, and after that nothing is signed. -/
theorem traversal_refines_classic (T : Troika) (D : ℕ) (hD : D ≤ mssMaxD) (prng : List Trit)
    (nonces hashes : List (List Trit)) :
    let t : Mss traversal := mssCreate T prng D nonces
    let c : Mss classic := mssCreate T prng D nonces
    (signAll T t hashes).2.tree.isSome ∧ t.root = c.root ∧
      (signAll T t hashes).1 = (signAll T c hashes).1 ∧
      ∀ k hash, hashes[k]? = some hash →
        (k < 2 ^ D → ∃ sig, (signAll T t hashes).1[k]? = some (.ok sig) ∧
          sig = mssSignature T prng nonces D k hash ∧ sig.length = mssSigSize D ∧
          mssParseSkn (sig.take mssSknSize) = some (D, k) ∧ mssVerify T hash sig t.root = true) ∧
        (2 ^ D ≤ k → (signAll T t hashes).1[k]? = some (.error .mssExhausted)) := by
  intro t c
  have ht : t.Sound T := sound_mssCreate prng hD nonces
  have hc : c.Sound T := sound_mssCreate prng hD nonces
  obtain ⟨tree, htree, -⟩ := traversal.ready_gen T (mssMtGenLeaf T t) D
  obtain ⟨hlen, hout⟩ := signAll_spec hashes ht (Nat.zero_le _)
  obtain ⟨hlen', hout'⟩ := signAll_spec hashes hc (Nat.zero_le _)
  have hroot : t.root = c.root := ht.root_eq.trans hc.root_eq.symm
  refine ⟨isSome_signAll hashes ht (Nat.zero_le _) (Option.isSome_iff_exists.mpr ⟨tree, htree⟩),
    hroot, ?_, fun k hash hk => ?_⟩
  · refine List.ext_getElem? fun k => ?_
    cases hk : hashes[k]? with
    | some hash => exact (hout k hash hk).trans (hout' k hash hk).symm
    | none =>
      have hge := List.getElem?_eq_none_iff.mp hk
      rw [List.getElem?_eq_none (hlen.trans_le hge), List.getElem?_eq_none (hlen'.trans_le hge)]
  · have hcall : (signAll T t hashes).1[k]? = some (signOutcome T prng nonces D (0 + k) hash) :=
      hout k hash hk
    rw [Nat.zero_add, signOutcome] at hcall
    refine ⟨fun hlt => ?_, fun hle => ?_⟩
    · obtain ⟨hsize, hskn, hverify⟩ := mssVerify_mssSignature T hD hlt prng nonces hash
      rw [if_pos hlt] at hcall
      exact ⟨_, hcall, rfl, hsize, hskn, hroot ▸ hverify⟩
    · rwa [if_neg (Nat.not_lt.mpr hle)] at hcall

/-- A tree of two keys signs twice. -/
theorem traversal_refines_classic_two :
    let T : Troika := ⟨id, fun _ h => h⟩
    let t : Mss traversal := mssCreate T [] 1 []
    (∃ sig, (signAll T t [[], [], []]).1[1]? = some (.ok sig) ∧ mssVerify T [] sig t.root = true) ∧
      (signAll T t [[], [], []]).1[2]? = some (.error .mssExhausted) := by
  intro T t
  obtain ⟨-, -, -, hcalls⟩ := traversal_refines_classic T 1 (by decide) [] [] [[], [], []]
  obtain ⟨sig, hcall, -, -, -, hverify⟩ := (hcalls 1 [] rfl).1 (by decide)
  exact ⟨⟨sig, hcall, hverify⟩, (hcalls 2 [] rfl).2 (by decide)⟩

end

end Mam

end Entangled
