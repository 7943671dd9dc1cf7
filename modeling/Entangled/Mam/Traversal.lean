import Entangled.Common.Treehash
import Entangled.Mam.Mss
import Mathlib.Logic.Function.Basic
/-!
# Merkle tree traversal

The other way the library keeps the hashes it needs: not the whole tree, but the path of the current
key and, for each level, a stack that works out the node which takes the place of that level's one
when the path moves on. Every move to a next key gives each of the stacks two more steps.

The stacks lie one behind the other in two arrays, one of places and one of hashes. The last one has
a place more than its level asks for, and while the root is worked out it is the only stack in use.
-/

namespace Entangled

namespace Mam

open Spongos PerfectTree

/-- `mss_mt_node_t`. -/
structure MssMtNode where
  height : ℕ
  levelIdx : ℕ
  deriving DecidableEq

/-- `mss_mt_stack_t`. -/
structure MssMtStack where
  height : ℕ
  levelIdx : ℕ
  size : ℕ
  deriving DecidableEq

/-- `MAM_MSS_MT_NODES`: where the stack of a level starts. -/
def mssMtNodes (d : ℕ) : ℕ := d * (d + 1) / 2

/-- How much the stack of a level may hold before it reaches the next one, or the end of the arrays,
which are one longer than `MAM_MSS_MT_NODES` of the height. -/
def mssMtStackCapacity (D height : ℕ) : ℕ := if height + 1 = D then D + 1 else height + 1

/-- What `mam_mss_t` has for the traversal. -/
structure Traversal where
  authPath : ℕ → List Trit
  nodesHashes : ℕ → List Trit
  nodes : ℕ → MssMtNode
  mtStacks : ℕ → MssMtStack

namespace Traversal

section

variable (T : Troika) (leaf : ℕ → List Trit) (D : ℕ)

/-- `mss_mt_init`. -/
def init : Traversal where
  authPath _ := []
  nodesHashes _ := []
  nodes _ := ⟨0, 0⟩
  mtStacks height := ⟨height, 0, 0⟩

def setStack (height : ℕ) (stack : MssMtStack) (t : Traversal) : Traversal :=
  { t with mtStacks := Function.update t.mtStacks height stack }

/-- The two nodes on top make room for the one above them. Its hash goes where the left one was, but
that of the root goes where the right one was. -/
def mergeTop (height : ℕ) (t : Traversal) : Traversal :=
  let stack := t.mtStacks height
  let i := mssMtNodes height + (stack.size - 2)
  let left := t.nodes i
  { t with
    nodesHashes := Function.update t.nodesHashes (if left.height + 1 ≠ D then i else i + 1)
      (mssHash2 T (t.nodesHashes i) (t.nodesHashes (i + 1)))
    nodes := Function.update t.nodes i ⟨left.height + 1, left.levelIdx / 2⟩
    mtStacks := Function.update t.mtStacks height { stack with size := stack.size - 1 } }

/-- The next leaf goes on top. -/
def pushLeaf (height : ℕ) (t : Traversal) : Traversal :=
  let stack := t.mtStacks height
  let i := mssMtNodes height + stack.size
  { t with
    nodesHashes := Function.update t.nodesHashes i (leaf stack.levelIdx)
    nodes := Function.update t.nodes i ⟨0, stack.levelIdx⟩
    mtStacks := Function.update t.mtStacks height
      { stack with levelIdx := stack.levelIdx + 1, size := stack.size + 1 } }

/-- `mss_mt_update`. There is no result where an assertion fails, or the stack would go over what
there is for it. -/
def update (height : ℕ) (t : Traversal) : Option Traversal :=
  let stack := t.mtStacks height
  let node (i : ℕ) := t.nodes (mssMtNodes height + i)
  if D ≤ height then none
  else if stack.size ≠ 0 ∧ stack.height ≤ (node (stack.size - 1)).height then some t
  else if 1 < stack.size ∧ (node (stack.size - 2)).height = (node (stack.size - 1)).height then
    some (mergeTop T D height t)
  else if stack.levelIdx ≤ mssMaxSkn D then
    if mssMtStackCapacity D height ≤ stack.size then none else some (pushLeaf leaf height t)
  else some t

/-- A turn of `mss_mt_refresh`: the node of the stack goes into the path, and the stack starts
again. -/
def restart (skn height : ℕ) (t : Traversal) : Traversal :=
  { t with
    authPath := Function.update t.authPath height (t.nodesHashes (mssMtNodes height))
    mtStacks := Function.update t.mtStacks height ⟨height, (skn + 1 + 2 ^ height) ^^^ 2 ^ height, 0⟩ }

/-- `mss_mt_refresh`, with `n` levels left from `height` on. -/
def refreshFrom (skn : ℕ) : ℕ → ℕ → Traversal → Option Traversal
  | 0, _, t => some t
  | n + 1, height, t =>
    if (skn + 1) % 2 ^ height ≠ 0 then some t
    else if (t.mtStacks height).size ≠ 1 then none
    else refreshFrom skn n (height + 1) (restart skn height t)

/-- `mss_mt_refresh`. -/
def refresh (skn : ℕ) (t : Traversal) : Option Traversal := refreshFrom skn D 0 t

/-- `mss_mt_build_stacks`, with `n` levels left from `height` on. -/
def buildFrom : ℕ → ℕ → Traversal → Option Traversal
  | 0, _, t => some t
  | n + 1, height, t => do
    let t ← update T leaf D height t
    let t ← update T leaf D height t
    buildFrom n (height + 1) t

/-- `mss_mt_build_stacks`. -/
def buildStacks (t : Traversal) : Option Traversal := buildFrom T leaf D D 0 t

/-- What `mam_mss_gen` does with the node it has just worked out, the one on top of the last stack:
into the path with it, or on the stack of its level, or nothing. -/
def keep (node : MssMtNode) (hash : List Trit) (t : Traversal) : Option Traversal :=
  if node.levelIdx = 1 then
    some { t with authPath := Function.update t.authPath node.height hash }
  else if node.levelIdx = 0 ∧ node.height + 1 ≠ D then
    let stack := t.mtStacks node.height
    if stack.size ≠ 0 then none
    else
      some { t with
        nodesHashes := Function.update t.nodesHashes (mssMtNodes node.height) hash
        nodes := Function.update t.nodes (mssMtNodes node.height) node
        mtStacks := Function.update t.mtStacks node.height { stack with size := 1 } }
  else some t

/-- Where the top node of a stack is. -/
def top (height : ℕ) (t : Traversal) : ℕ := mssMtNodes height + ((t.mtStacks height).size - 1)

/-- The loop of `mam_mss_gen`, which ends with the root. -/
def genLoop : ℕ → Traversal → Option (Traversal × List Trit)
  | 0, _ => none
  | fuel + 1, t => do
    let t ← update T leaf D (D - 1) t
    let node := t.nodes (top (D - 1) t)
    if node.height = D then
      some (setStack (D - 1) ⟨D - 1, 0, 1⟩ t, t.nodesHashes (top (D - 1) t + 1))
    else
      let t ← keep D node (t.nodesHashes (top (D - 1) t)) t
      genLoop fuel t

/-- `mam_mss_gen`, on the memory `mam_mss_init` leaves. The loop is over when the stack has taken
as many steps as there are nodes. -/
def gen : Option (Traversal × List Trit) :=
  if D = 0 then some (init, leaf 0)
  else genLoop T leaf D (2 ^ (D + 1)) (setStack (D - 1) ⟨D, 0, 0⟩ init)

/-- `mam_mss_auth_path`, which does not look at the key. -/
def path (t : Traversal) : List Trit := ((List.range D).map t.authPath).flatten

end

/-! ## The stacks as towers -/

theorem mssMtNodes_succ (h : ℕ) : mssMtNodes (h + 1) = mssMtNodes h + (h + 1) := by
  unfold mssMtNodes
  rw [show (h + 1) * (h + 1 + 1) = h * (h + 1) + 2 * (h + 1) by ring,
    Nat.add_mul_div_left _ _ (by decide)]

theorem mssMtNodes_le {D h h' i : ℕ} (hlt : h < h') (hD : h' < D) (hi : i < mssMtStackCapacity D h) :
    mssMtNodes h + i < mssMtNodes h' := by
  rw [mssMtStackCapacity, if_neg (by omega)] at hi
  obtain ⟨d, rfl⟩ := Nat.exists_eq_add_of_lt hlt
  clear hlt hD
  induction d with
  | zero =>
    rw [Nat.add_zero, mssMtNodes_succ]
    omega
  | succ d ih =>
    rw [show h + (d + 1) + 1 = h + d + 1 + 1 by omega, mssMtNodes_succ]
    omega

/-- **No two stacks share a place.** -/
theorem places_ne {D h h' i j : ℕ} (hh : h < D) (hh' : h' < D) (hne : h ≠ h')
    (hi : i < mssMtStackCapacity D h) (hj : j < mssMtStackCapacity D h') :
    mssMtNodes h + i ≠ mssMtNodes h' + j := by
  rcases Nat.lt_or_gt_of_ne hne with hlt | hgt
  · have hle := mssMtNodes_le hlt hh' hi
    omega
  · have hle := mssMtNodes_le hgt hh hj
    omega

theorem lt_mssMtStackCapacity (D h : ℕ) : h < mssMtStackCapacity D h := by
  unfold mssMtStackCapacity
  split_ifs <;> omega

/-- The lowest `n` places of a stack, as a stack of values. -/
def viewFrom (t : Traversal) (base : ℕ) : ℕ → List (Treehash.Node (List Trit))
  | 0 => []
  | n + 1 =>
    ⟨(t.nodes (base + n)).height, (t.nodes (base + n)).levelIdx, t.nodesHashes (base + n)⟩ ::
      viewFrom t base n

/-- What a stack holds, the top first. -/
def view (t : Traversal) (height : ℕ) : List (Treehash.Node (List Trit)) :=
  viewFrom t (mssMtNodes height) (t.mtStacks height).size

/-- A stack, with the leaf that it takes next. -/
def state (t : Traversal) (height : ℕ) : Treehash.State (List Trit) :=
  ⟨(t.mtStacks height).levelIdx, t.view height⟩

section

variable {T : Troika} {leaf : ℕ → List Trit} {D h w u height : ℕ} {t t' t'' : Traversal}

theorem viewFrom_congr {base : ℕ} : ∀ {n : ℕ},
    (∀ i < n, t'.nodes (base + i) = t.nodes (base + i) ∧
      t'.nodesHashes (base + i) = t.nodesHashes (base + i)) →
    viewFrom t' base n = viewFrom t base n
  | 0, _ => rfl
  | n + 1, hsame => by
    obtain ⟨hnode, hhash⟩ := hsame n n.lt_succ_self
    rw [viewFrom, viewFrom, hnode, hhash,
      viewFrom_congr fun i hi => hsame i (Nat.lt_succ_of_lt hi)]

theorem length_viewFrom (base n : ℕ) : (viewFrom t base n).length = n := by
  induction n with
  | zero => rfl
  | succ n ih => rw [viewFrom, List.length_cons, ih]

theorem length_view : (t.view height).length = (t.mtStacks height).size := length_viewFrom _ _

theorem finished_view : Treehash.Finished h (t.view height) ↔
    (t.mtStacks height).size ≠ 0 ∧
      h ≤ (t.nodes (mssMtNodes height + ((t.mtStacks height).size - 1))).height := by
  unfold view
  cases (t.mtStacks height).size with
  | zero => exact iff_of_false id fun hs => hs.1 rfl
  | succ n => exact (and_iff_right n.succ_ne_zero).symm

theorem mergeable_view : Treehash.Mergeable (t.view height) ↔
    1 < (t.mtStacks height).size ∧
      (t.nodes (mssMtNodes height + ((t.mtStacks height).size - 2))).height =
        (t.nodes (mssMtNodes height + ((t.mtStacks height).size - 1))).height := by
  unfold view
  match (t.mtStacks height).size with
  | 0 => exact iff_of_false id fun hs => absurd hs.1 (by decide)
  | 1 => exact iff_of_false id fun hs => absurd hs.1 (by decide)
  | n + 2 => exact (and_iff_right (by omega)).symm

theorem setStack_self {stack : MssMtStack} :
    (setStack height stack t).mtStacks height = stack := Function.update_self _ _ _

theorem setStack_of_ne {stack : MssMtStack} (hne : h ≠ height) :
    (setStack height stack t).mtStacks h = t.mtStacks h := Function.update_of_ne hne _ _

theorem height_pushLeaf :
    ((pushLeaf leaf height t).mtStacks height).height = (t.mtStacks height).height := by
  unfold pushLeaf
  dsimp only
  rw [Function.update_self]

theorem height_mergeTop :
    ((mergeTop T D height t).mtStacks height).height = (t.mtStacks height).height := by
  unfold mergeTop
  dsimp only
  rw [Function.update_self]

/-- A stack is as it was, and so is what it may hold. -/
structure SameAt (D h : ℕ) (t t' : Traversal) : Prop where
  mtStacks : t'.mtStacks h = t.mtStacks h
  nodes : ∀ i < mssMtStackCapacity D h, t'.nodes (mssMtNodes h + i) = t.nodes (mssMtNodes h + i)
  nodesHashes : ∀ i < mssMtStackCapacity D h,
    t'.nodesHashes (mssMtNodes h + i) = t.nodesHashes (mssMtNodes h + i)

theorem SameAt.trans (hs : SameAt D h t t') (hs' : SameAt D h t' t'') : SameAt D h t t'' where
  mtStacks := hs'.mtStacks.trans hs.mtStacks
  nodes i hi := (hs'.nodes i hi).trans (hs.nodes i hi)
  nodesHashes i hi := (hs'.nodesHashes i hi).trans (hs.nodesHashes i hi)

/-- The stack holds what it held. -/
theorem SameAt.state (hs : SameAt D h t t')
    (hsize : (t.mtStacks h).size ≤ mssMtStackCapacity D h) : t'.state h = t.state h := by
  rw [Traversal.state, Traversal.state, view, view, hs.mtStacks,
    viewFrom_congr fun i hi => ⟨hs.nodes i (hi.trans_le hsize),
      hs.nodesHashes i (hi.trans_le hsize)⟩]

/-- Nothing but one stack has changed. -/
structure Frame (D height : ℕ) (t t' : Traversal) : Prop where
  authPath : t'.authPath = t.authPath
  others : ∀ h < D, h ≠ height → SameAt D h t t'

theorem Frame.refl : Frame D height t t :=
  ⟨rfl, fun _ _ _ => ⟨rfl, fun _ _ => rfl, fun _ _ => rfl⟩⟩

theorem Frame.trans (hf : Frame D height t t') (hf' : Frame D height t' t'') :
    Frame D height t t'' where
  authPath := hf'.authPath.trans hf.authPath
  others h hh hne := (hf.others h hh hne).trans (hf'.others h hh hne)

theorem frame_pushLeaf (hheight : height < D)
    (hsize : (t.mtStacks height).size < mssMtStackCapacity D height) :
    Frame D height t (pushLeaf leaf height t) where
  authPath := rfl
  others _ hh hne :=
    { mtStacks := Function.update_of_ne hne _ _
      nodes := fun _ hi => Function.update_of_ne (places_ne hh hheight hne hi hsize) _ _
      nodesHashes := fun _ hi => Function.update_of_ne (places_ne hh hheight hne hi hsize) _ _ }

theorem frame_mergeTop (hheight : height < D) (hone : 1 < (t.mtStacks height).size)
    (hsize : (t.mtStacks height).size ≤ mssMtStackCapacity D height) :
    Frame D height t (mergeTop T D height t) where
  authPath := rfl
  others _ hh hne :=
    { mtStacks := Function.update_of_ne hne _ _
      nodes := fun _ hi =>
        Function.update_of_ne (places_ne hh hheight hne hi (by omega)) _ _
      nodesHashes := fun _ hi => by
        refine Function.update_of_ne ?_ _ _
        split_ifs
        · exact places_ne hh hheight hne hi (by omega)
        · rw [Nat.add_assoc]
          exact places_ne hh hheight hne hi (by omega) }

theorem state_pushLeaf : (pushLeaf leaf height t).state height =
    ⟨(t.state height).next + 1, Treehash.leafNode leaf (t.state height).next :: t.view height⟩ := by
  have hstack : (pushLeaf leaf height t).mtStacks height =
      { t.mtStacks height with
        levelIdx := (t.mtStacks height).levelIdx + 1, size := (t.mtStacks height).size + 1 } :=
    Function.update_self _ _ _
  have hnode : (pushLeaf leaf height t).nodes (mssMtNodes height + (t.mtStacks height).size) =
      ⟨0, (t.mtStacks height).levelIdx⟩ := Function.update_self _ _ _
  have hhash : (pushLeaf leaf height t).nodesHashes
      (mssMtNodes height + (t.mtStacks height).size) = leaf (t.mtStacks height).levelIdx :=
    Function.update_self _ _ _
  have hrest : viewFrom (pushLeaf leaf height t) (mssMtNodes height) (t.mtStacks height).size =
      t.view height :=
    viewFrom_congr fun i hi =>
      ⟨Function.update_of_ne (by omega) _ _, Function.update_of_ne (by omega) _ _⟩
  rw [state, view, hstack, viewFrom, hrest, hnode, hhash]
  rfl

/-- Where the hash of the root does not come in. -/
theorem state_mergeTop (hm : Treehash.Mergeable (t.view height))
    (hroot : ¬ Treehash.Finished D (Treehash.merge (mssHash2 T) (t.view height))) :
    (mergeTop T D height t).state height =
      ⟨(t.state height).next, Treehash.merge (mssHash2 T) (t.view height)⟩ := by
  obtain ⟨n, hn⟩ := Nat.exists_eq_add_of_le' (mergeable_view.mp hm).1
  have hview : t.view height = viewFrom t (mssMtNodes height) (n + 2) := by rw [view, hn]
  rw [hview] at hroot ⊢
  have hne : (t.nodes (mssMtNodes height + n)).height + 1 ≠ D := fun heq => hroot heq.ge
  have hplace : mssMtNodes height + ((t.mtStacks height).size - 2) = mssMtNodes height + n := by
    rw [hn]
    rfl
  have hstack : (mergeTop T D height t).mtStacks height =
      { t.mtStacks height with size := n + 1 } := by
    refine (Function.update_self _ _ _).trans ?_
    rw [hn]
    rfl
  have hnode : (mergeTop T D height t).nodes (mssMtNodes height + n) =
      ⟨(t.nodes (mssMtNodes height + n)).height + 1,
        (t.nodes (mssMtNodes height + n)).levelIdx / 2⟩ := by
    unfold mergeTop
    dsimp only
    rw [hplace, Function.update_self]
  have hhash : (mergeTop T D height t).nodesHashes (mssMtNodes height + n) =
      mssHash2 T (t.nodesHashes (mssMtNodes height + n))
        (t.nodesHashes (mssMtNodes height + n + 1)) := by
    unfold mergeTop
    dsimp only
    rw [hplace, if_pos hne, Function.update_self]
  have hrest : viewFrom (mergeTop T D height t) (mssMtNodes height) n =
      viewFrom t (mssMtNodes height) n := by
    refine viewFrom_congr fun i hi => ?_
    unfold mergeTop
    dsimp only
    rw [hplace, if_pos hne]
    exact ⟨Function.update_of_ne (by omega) _ _, Function.update_of_ne (by omega) _ _⟩
  rw [state, view, hstack, viewFrom, hrest, hnode, hhash]
  rfl

/-- What a finished stack is told by: the node is there, alone. -/
def Done (T : Troika) (leaf : ℕ → List Trit) (h w : ℕ) (t : Traversal) : Prop :=
  (t.mtStacks h).height = h ∧ (t.mtStacks h).size = 1 ∧ h ≤ (t.nodes (mssMtNodes h)).height ∧
    t.nodesHashes (mssMtNodes h) = nodeOf (mssHash2 T) leaf h w

theorem update_merge (hheight : height < D)
    (hf : ¬ Treehash.Finished (t.mtStacks height).height (t.view height))
    (hm : Treehash.Mergeable (t.view height)) :
    update T leaf D height t = some (mergeTop T D height t) := by
  unfold update
  dsimp only
  rw [if_neg (Nat.not_le.mpr hheight), if_neg (fun hclosed => hf (finished_view.mpr hclosed)),
    if_pos (mergeable_view.mp hm)]

theorem update_push (hheight : height < D)
    (hf : ¬ Treehash.Finished (t.mtStacks height).height (t.view height))
    (hm : ¬ Treehash.Mergeable (t.view height)) (hidx : (t.mtStacks height).levelIdx ≤ mssMaxSkn D)
    (hsize : (t.mtStacks height).size < mssMtStackCapacity D height) :
    update T leaf D height t = some (pushLeaf leaf height t) := by
  unfold update
  dsimp only
  rw [if_neg (Nat.not_le.mpr hheight), if_neg (fun hclosed => hf (finished_view.mpr hclosed)),
    if_neg (fun hmerge => hm (mergeable_view.mpr hmerge)), if_pos hidx,
    if_neg (Nat.not_le.mpr hsize)]

/-- **A step of `mss_mt_update`**, where the root does not come in. -/
theorem update_step (hheight : height < D)
    (ht : Treehash.Tower (mssHash2 T) leaf h w u (t.state height))
    (hstack : (t.mtStacks height).height = h) (hcap : h < mssMtStackCapacity D height)
    (hw : (w + 1) * 2 ^ h ≤ 2 ^ D) (hf : ¬ Treehash.Finished h (t.view height))
    (hroot : ¬ Treehash.Finished D (Treehash.step (mssHash2 T) leaf (t.state height)).nodes) :
    ∃ t', update T leaf D height t = some t' ∧ Frame D height t t' ∧
      (t'.mtStacks height).height = h ∧
      t'.state height = Treehash.step (mssHash2 T) leaf (t.state height) := by
  have hopen : ¬ Treehash.Finished (t.mtStacks height).height (t.view height) := hstack ▸ hf
  have hsize : (t.state height).nodes.length = (t.mtStacks height).size := length_view
  unfold Treehash.step at hroot ⊢
  by_cases hm : Treehash.Mergeable (t.state height).nodes
  · have hone := (mergeable_view.mp hm).1
    have hlen := ht.length_le_succ
    rw [if_pos hm] at hroot ⊢
    exact ⟨_, update_merge hheight hopen hm, frame_mergeTop hheight hone (by omega),
      height_mergeTop.trans hstack, state_mergeTop hm hroot⟩
  · have hnext := ht.next_lt hf hm
    have hlen := ht.length_le hf hm
    have hmax : (t.mtStacks height).levelIdx ≤ mssMaxSkn D :=
      Nat.le_sub_one_of_lt (hnext.trans_le hw)
    rw [if_neg hm]
    exact ⟨_, update_push hheight hopen hm hmax (by omega), frame_pushLeaf hheight (by omega),
      height_pushLeaf.trans hstack, state_pushLeaf⟩

/-- A stack after `u` steps on the way to the node of level `h` and place `w`. The stacks that
`mam_mss_gen` leaves are done, however many steps that would have taken. -/
inductive Progress (T : Troika) (leaf : ℕ → List Trit) (h w u : ℕ) (t : Traversal) : Prop
  | done (hdone : Done T leaf h w t)
  | working (hu : u < 2 ^ (h + 1) - 1) (hheight : (t.mtStacks h).height = h)
      (htower : Treehash.Tower (mssHash2 T) leaf h w u (t.state h))

theorem Progress.done_of_le (hp : Progress T leaf h w u t) (hu : 2 ^ (h + 1) - 1 ≤ u) :
    Done T leaf h w t := by
  cases hp with
  | done hdone => exact hdone
  | working hlt => omega

theorem Progress.size_le (hp : Progress T leaf h w u t) :
    (t.mtStacks h).size ≤ mssMtStackCapacity D h := by
  have hcap := lt_mssMtStackCapacity D h
  cases hp with
  | done hdone =>
    have hsize := hdone.2.1
    omega
  | working hu hheight htower =>
    have hlen := htower.length_le_succ
    have hsize : (t.state h).nodes.length = (t.mtStacks h).size := length_view
    omega

theorem done_of_state (hheight : (t.mtStacks h).height = h)
    (hstate : t.state h = ⟨(w + 1) * 2 ^ h, [⟨h, w, nodeOf (mssHash2 T) leaf h w⟩]⟩) :
    Done T leaf h w t := by
  have hview : t.view h = [⟨h, w, nodeOf (mssHash2 T) leaf h w⟩] :=
    congrArg Treehash.State.nodes hstate
  have hsize : (t.mtStacks h).size = 1 := by
    rw [← length_view, hview]
    rfl
  rw [view, hsize, viewFrom, viewFrom, Nat.add_zero] at hview
  obtain ⟨hplace, -, hhash⟩ := Treehash.Node.mk.inj (List.cons.inj hview).1
  exact ⟨hheight, hsize, hplace.ge, hhash⟩

/-- **A step of a stack on its way.** -/
theorem Progress.update (hp : Progress T leaf h w u t) (hh : h < D)
    (hw : (w + 1) * 2 ^ h ≤ 2 ^ D) :
    ∃ t', Traversal.update T leaf D h t = some t' ∧ Frame D h t t' ∧
      Progress T leaf h w (u + 1) t' := by
  cases hp with
  | done hdone =>
    obtain ⟨hheight, hsize, htop, hhash⟩ := hdone
    refine ⟨t, ?_, Frame.refl, .done ⟨hheight, hsize, htop, hhash⟩⟩
    unfold Traversal.update
    dsimp only
    rw [if_neg (Nat.not_le.mpr hh), hsize, if_pos ⟨one_ne_zero, hheight.trans_le htop⟩]
  | working hu hheight htower =>
    have hf : ¬ Treehash.Finished h (t.view h) := by
      intro hf
      have hcount := (htower.eq_of_finished hf).2
      omega
    have hstep := htower.step hf
    obtain ⟨t', hupdate, hframe, hheight', hstate⟩ :=
      update_step hh htower hheight (lt_mssMtStackCapacity D h) hw hf (hstep.not_finished_of_lt hh)
    rw [← hstate] at hstep
    refine ⟨t', hupdate, hframe, ?_⟩
    by_cases hlt : u + 1 < 2 ^ (h + 1) - 1
    · exact .working hlt hheight' hstep
    · exact .done (done_of_state hheight'
        (hstep.eq_of_finished (hstep.finished_of_count (by omega))).1)

theorem Done.sameAt (hdone : Done T leaf h w t) (hs : SameAt D h t t') : Done T leaf h w t' := by
  have hpos : 0 < mssMtStackCapacity D h := Nat.zero_lt_of_lt (lt_mssMtStackCapacity D h)
  have hnode := hs.nodes 0 hpos
  have hhash := hs.nodesHashes 0 hpos
  rw [Nat.add_zero] at hnode hhash
  rw [Done, hs.mtStacks, hnode, hhash]
  exact hdone

theorem Progress.sameAt (hp : Progress T leaf h w u t) (hs : SameAt D h t t') :
    Progress T leaf h w u t' := by
  have hsize := hp.size_le (D := D)
  cases hp with
  | done hdone => exact .done (hdone.sameAt hs)
  | working hu hheight htower =>
    refine .working hu ((congrArg _ hs.mtStacks).trans hheight) ?_
    rwa [hs.state hsize]

/-- The stack of level `h`, where the path comes to place `k` next and `u` steps have been taken
towards the node beside it. A stack for which there is no such node stays empty. -/
def Level (T : Troika) (leaf : ℕ → List Trit) (D h k u : ℕ) (t : Traversal) : Prop :=
  if k < 2 ^ (D - h) then Progress T leaf h (sibling k) u t
  else (t.mtStacks h).size = 0 ∧ 2 ^ D ≤ (t.mtStacks h).levelIdx

theorem sibling_lt {n k : ℕ} (hn : 0 < n) (hk : k < 2 ^ n) : sibling k < 2 ^ n := by
  obtain ⟨n, rfl⟩ := Nat.exists_eq_add_of_lt hn
  rw [Nat.zero_add, pow_succ] at hk ⊢
  rw [sibling]
  split_ifs <;> omega

theorem two_pow_sub_mul (hh : h ≤ D) : 2 ^ (D - h) * 2 ^ h = 2 ^ D := by
  rw [← pow_add, Nat.sub_add_cancel hh]

theorem Level.update {k : ℕ} (hl : Level T leaf D h k u t) (hh : h < D) :
    ∃ t', Traversal.update T leaf D h t = some t' ∧ Frame D h t t' ∧
      Level T leaf D h k (u + 1) t' := by
  unfold Level at hl ⊢
  by_cases hk : k < 2 ^ (D - h)
  · rw [if_pos hk] at hl
    simp only [if_pos hk]
    refine hl.update hh ?_
    rw [← two_pow_sub_mul hh.le]
    exact Nat.mul_le_mul_right _ (sibling_lt (by omega) hk)
  · rw [if_neg hk] at hl
    simp only [if_neg hk]
    obtain ⟨hsize, hidx⟩ := hl
    refine ⟨t, ?_, Frame.refl, hsize, hidx⟩
    have hpos := Nat.two_pow_pos D
    have hmax : ¬ (t.mtStacks h).levelIdx ≤ mssMaxSkn D := by
      rw [mssMaxSkn]
      omega
    unfold Traversal.update
    dsimp only
    rw [if_neg (Nat.not_le.mpr hh), hsize, if_neg (fun hs => hs.1 rfl),
      if_neg (fun hs => absurd hs.1 (by decide)), if_neg hmax]

theorem Level.sameAt {k : ℕ} (hl : Level T leaf D h k u t) (hs : SameAt D h t t') :
    Level T leaf D h k u t' := by
  unfold Level at hl ⊢
  split_ifs at hl ⊢ with hk
  · exact hl.sameAt hs
  · rwa [hs.mtStacks]

/-- **Two more steps for each stack.** -/
theorem buildFrom_spec {k u : ℕ → ℕ} (n : ℕ) (hn : height + n = D)
    (hlow : ∀ h < height, Level T leaf D h (k h) (u h + 2) t)
    (hhigh : ∀ h, height ≤ h → h < D → Level T leaf D h (k h) (u h) t) :
    ∃ t', buildFrom T leaf D n height t = some t' ∧ t'.authPath = t.authPath ∧
      ∀ h < D, Level T leaf D h (k h) (u h + 2) t' := by
  induction n generalizing height t with
  | zero =>
    obtain rfl : height = D := hn
    exact ⟨t, rfl, rfl, hlow⟩
  | succ n ih =>
    have hheight : height < D := by omega
    obtain ⟨t₁, hstep₁, hframe₁, hlevel₁⟩ := (hhigh height le_rfl hheight).update hheight
    obtain ⟨t₂, hstep₂, hframe₂, hlevel₂⟩ := hlevel₁.update hheight
    have hframe := hframe₁.trans hframe₂
    obtain ⟨t', hrest, hpath, hall⟩ := @ih (height + 1) t₂ (by omega)
      (fun h hh => by
        rcases Nat.lt_succ_iff_lt_or_eq.mp hh with hlt | rfl
        · exact (hlow h hlt).sameAt (hframe.others h (by omega) (by omega))
        · exact hlevel₂)
      (fun h hle hh => (hhigh h (by omega) hh).sameAt (hframe.others h hh (by omega)))
    refine ⟨t', ?_, hpath.trans hframe.authPath, hall⟩
    rw [buildFrom, hstep₁, Option.bind_eq_bind, Option.bind_some, hstep₂, Option.bind_some, hrest]

/-- **The levels whose node is next in the path** start again, and the others stay. -/
theorem refreshFrom_spec {skn : ℕ} (n : ℕ)
    (hsize : ∀ h, height ≤ h → h < height + n → 2 ^ h ∣ skn + 1 → (t.mtStacks h).size = 1) :
    ∃ t', refreshFrom skn n height t = some t' ∧ t'.nodes = t.nodes ∧
      t'.nodesHashes = t.nodesHashes ∧ ∀ h,
        if height ≤ h ∧ h < height + n ∧ 2 ^ h ∣ skn + 1 then
          t'.authPath h = t.nodesHashes (mssMtNodes h) ∧
            t'.mtStacks h = ⟨h, (skn + 1 + 2 ^ h) ^^^ 2 ^ h, 0⟩
        else t'.authPath h = t.authPath h ∧ t'.mtStacks h = t.mtStacks h := by
  induction n generalizing height t with
  | zero =>
    refine ⟨t, rfl, rfl, rfl, fun h => ?_⟩
    rw [if_neg (by omega)]
    exact ⟨rfl, rfl⟩
  | succ n ih =>
    by_cases hdvd : 2 ^ height ∣ skn + 1
    · have hone := hsize height le_rfl (by omega) hdvd
      have hoff : ∀ h, h ≠ height → (restart skn height t).mtStacks h = t.mtStacks h :=
        fun h hne => Function.update_of_ne hne _ _
      obtain ⟨t', hrest, hnodes, hhashes, hall⟩ := @ih (height + 1)
        (restart skn height t) (fun h hle hlt hd => by
          rw [hoff h (by omega)]
          exact hsize h (by omega) (by omega) hd)
      refine ⟨t', ?_, hnodes, hhashes, fun h => ?_⟩
      · rw [refreshFrom, if_neg (fun hmod => hmod (Nat.mod_eq_zero_of_dvd hdvd)),
          if_neg (fun hne => hne hone), hrest]
      · have hat := hall h
        by_cases heq : h = height
        · subst heq
          rw [if_neg (by omega)] at hat
          rw [if_pos ⟨le_rfl, by omega, hdvd⟩, hat.1, hat.2]
          exact ⟨Function.update_self _ _ _, Function.update_self _ _ _⟩
        · have hpath : (restart skn height t).authPath h = t.authPath h :=
            Function.update_of_ne heq _ _
          rw [hoff h heq, hpath] at hat
          have hiff : (height + 1 ≤ h ∧ h < height + 1 + n ∧ 2 ^ h ∣ skn + 1) ↔
              (height ≤ h ∧ h < height + (n + 1) ∧ 2 ^ h ∣ skn + 1) := by
            omega
          rwa [if_congr hiff rfl rfl] at hat
    · refine ⟨t, ?_, rfl, rfl, fun h => ?_⟩
      · rw [refreshFrom, if_pos (fun hmod => hdvd (Nat.dvd_of_mod_eq_zero hmod))]
      · rw [if_neg]
        · exact ⟨rfl, rfl⟩
        · rintro ⟨hle, -, hd⟩
          exact hdvd ((pow_dvd_pow 2 hle).trans hd)

/-- A stack starts again at the first leaf below its node. -/
theorem restart_levelIdx {x : ℕ} (hx : 2 ^ h ∣ x) :
    (x + 2 ^ h) ^^^ 2 ^ h = sibling (x / 2 ^ h + 1) * 2 ^ h := by
  obtain ⟨k, rfl⟩ := hx
  have hxor : ∀ n, n ^^^ 1 = sibling n := by
    intro n
    rw [sibling]
    split_ifs with hodd
    · exact Nat.xor_one_of_odd (Nat.odd_iff.mpr hodd)
    · exact Nat.xor_one_of_even (Nat.even_iff.mpr (by omega))
  rw [Nat.mul_div_cancel_left _ (Nat.two_pow_pos h), ← hxor, ← Nat.shiftLeft_eq,
    Nat.shiftLeft_xor_distrib, Nat.shiftLeft_eq, Nat.shiftLeft_eq, Nat.one_mul]
  congr 1
  ring

/-- What the traversal has when the key is `skn`: the path of the key, and each stack on its way to
the node with which the path of a later key differs from it. -/
def Ready (T : Troika) (leaf : ℕ → List Trit) (D skn : ℕ) (t : Traversal) : Prop :=
  ∀ h < D, t.authPath h = nodeOf (mssHash2 T) leaf h (sibling (skn / 2 ^ h)) ∧
    Level T leaf D h (skn / 2 ^ h + 1) (2 * (skn % 2 ^ h + 1)) t

/-- A stack that starts again. -/
theorem level_restart {k : ℕ} (hh : h < D) (hk : k ≤ 2 ^ (D - h))
    (hstack : t.mtStacks h = ⟨h, sibling k * 2 ^ h, 0⟩) : Level T leaf D h k 0 t := by
  have hsize : (t.mtStacks h).size = 0 := by rw [hstack]
  rw [Level]
  split_ifs with hlt
  · have hpos := Nat.two_pow_pos h
    refine .working (by rw [pow_succ]; omega) (by rw [hstack]) ?_
    have hstate : t.state h = ⟨sibling k * 2 ^ h, []⟩ := by
      rw [state, view, hsize, hstack]
      rfl
    rw [hstate]
    exact Treehash.Tower.empty h (sibling k)
  · -- the path has no more places here, and the node beside the first one too many is no node
    obtain ⟨d, hd⟩ := Nat.exists_eq_add_of_lt hh
    have heven : 2 ^ (D - h) = 2 * 2 ^ d := by
      rw [show D - h = d + 1 by omega, pow_succ, Nat.mul_comm]
    have hsib : sibling k = 2 ^ (D - h) + 1 := by
      rw [sibling, if_neg (by omega)]
      omega
    refine ⟨hsize, ?_⟩
    rw [hstack, ← two_pow_sub_mul hh.le]
    exact Nat.mul_le_mul_right _ (by omega)

/-- What is left of the count when the path stays or moves on. -/
theorem succ_div_mod (skn h : ℕ) :
    (2 ^ h ∣ skn + 1 ∧ (skn + 1) / 2 ^ h = skn / 2 ^ h + 1 ∧ (skn + 1) % 2 ^ h = 0 ∧
        skn % 2 ^ h + 1 = 2 ^ h) ∨
      (¬ 2 ^ h ∣ skn + 1 ∧ (skn + 1) / 2 ^ h = skn / 2 ^ h ∧
        (skn + 1) % 2 ^ h = skn % 2 ^ h + 1) := by
  have hlt := Nat.mod_lt skn (Nat.two_pow_pos h)
  have hdecomp := Nat.div_add_mod skn (2 ^ h)
  have hpos := Nat.two_pow_pos h
  rcases Nat.lt_or_eq_of_le hlt with hlt | heq
  · obtain ⟨hdiv, hmod⟩ := (Nat.div_mod_unique hpos).mpr
      ⟨show skn % 2 ^ h + 1 + 2 ^ h * (skn / 2 ^ h) = skn + 1 by omega, hlt⟩
    refine .inr ⟨fun hdvd => ?_, hdiv, hmod⟩
    have hzero := Nat.mod_eq_zero_of_dvd hdvd
    omega
  · have hmul : 2 ^ h * (skn / 2 ^ h + 1) = 2 ^ h * (skn / 2 ^ h) + 2 ^ h := by ring
    obtain ⟨hdiv, hmod⟩ := (Nat.div_mod_unique hpos).mpr
      ⟨show 0 + 2 ^ h * (skn / 2 ^ h + 1) = skn + 1 by omega, hpos⟩
    exact .inl ⟨Nat.dvd_of_mod_eq_zero hmod, hdiv, hmod, heq⟩

/-- `mam_mss_next`. -/
def next (T : Troika) (leaf : ℕ → List Trit) (D skn : ℕ) (t : Traversal) : Option Traversal :=
  refresh D skn t >>= buildStacks T leaf D

/-- **Moving on to the next key** is possible, and the traversal has what it has to have then. -/
theorem Ready.next {skn : ℕ} (hready : Ready T leaf D skn t) (hskn : skn + 1 < 2 ^ D) :
    ∃ t', Traversal.next T leaf D skn t = some t' ∧ Ready T leaf D (skn + 1) t' := by
  -- a stack whose node is asked for has had the time to work it out
  have hdone : ∀ h < D, 2 ^ h ∣ skn + 1 →
      Done T leaf h (sibling ((skn + 1) / 2 ^ h)) t ∧ (skn + 1) / 2 ^ h < 2 ^ (D - h) := by
    intro h hh hdvd
    obtain ⟨-, hdiv, -, hlast⟩ | ⟨hnot, -⟩ := succ_div_mod skn h
    · have hlt : (skn + 1) / 2 ^ h < 2 ^ (D - h) := by
        rw [Nat.div_lt_iff_lt_mul (Nat.two_pow_pos h), two_pow_sub_mul hh.le]
        exact hskn
      have hlevel := (hready h hh).2
      rw [← hdiv, hlast, Level, if_pos hlt] at hlevel
      exact ⟨hlevel.done_of_le (by rw [pow_succ]; omega), hlt⟩
    · exact absurd hdvd hnot
  obtain ⟨t₁, hrefresh, hnodes, hhashes, hall⟩ := @refreshFrom_spec 0 t skn D
    fun h _ hh hdvd => (hdone h (by omega) hdvd).1.2.1
  have hbefore : ∀ h < D,
      t₁.authPath h = nodeOf (mssHash2 T) leaf h (sibling ((skn + 1) / 2 ^ h)) ∧
        Level T leaf D h ((skn + 1) / 2 ^ h + 1) (2 * ((skn + 1) % 2 ^ h)) t₁ := by
    intro h hh
    have hat := hall h
    obtain ⟨hdvd, hdiv, hmod, -⟩ | ⟨hnot, hdiv, hmod⟩ := succ_div_mod skn h
    · rw [if_pos ⟨Nat.zero_le _, by omega, hdvd⟩] at hat
      obtain ⟨hnode, hlt⟩ := hdone h hh hdvd
      refine ⟨hat.1.trans hnode.2.2.2, ?_⟩
      rw [hmod]
      exact level_restart hh hlt (by rw [hat.2, restart_levelIdx hdvd])
    · rw [if_neg (fun hand => hnot hand.2.2)] at hat
      rw [hdiv, hmod, hat.1]
      exact ⟨(hready h hh).1, (hready h hh).2.sameAt
        ⟨hat.2, fun _ _ => congrFun hnodes _, fun _ _ => congrFun hhashes _⟩⟩
  obtain ⟨t', hbuild, hpath, hlevel⟩ := @buildFrom_spec T leaf D 0 t₁ _ _ D (by omega)
    (fun h hh => absurd hh (Nat.not_lt_zero h)) (fun h _ hh => (hbefore h hh).2)
  refine ⟨t', ?_, fun h hh => ⟨?_, hlevel h hh⟩⟩
  · rw [Traversal.next, refresh, hrefresh, Option.bind_eq_bind, Option.bind_some]
    exact hbuild
  · rw [hpath]
    exact (hbefore h hh).1

/-! ## The first path -/

/-- What `mam_mss_gen` has after `u` steps of its stack: on the way to the root, the nodes the first
path and the next one are made of have been put where they belong. -/
structure Building (T : Troika) (leaf : ℕ → List Trit) (D u : ℕ) (t : Traversal) : Prop where
  height : (t.mtStacks (D - 1)).height = D
  tower : Treehash.Tower (mssHash2 T) leaf D 0 u (t.state (D - 1))
  path : ∀ h < D, Treehash.Made h 1 (t.state (D - 1)) →
    t.authPath h = nodeOf (mssHash2 T) leaf h 1
  left : ∀ h, h + 1 < D → Treehash.Made h 0 (t.state (D - 1)) → Done T leaf h 0 t
  empty : ∀ h, h + 1 < D → ¬ Treehash.Made h 0 (t.state (D - 1)) →
    (t.mtStacks h).height = h ∧ (t.mtStacks h).size = 0

theorem view_eq_cons (hsize : (t.mtStacks height).size ≠ 0) :
    t.view height = ⟨(t.nodes (top height t)).height, (t.nodes (top height t)).levelIdx,
      t.nodesHashes (top height t)⟩ ::
      viewFrom t (mssMtNodes height) ((t.mtStacks height).size - 1) := by
  obtain ⟨n, hn⟩ := Nat.exists_eq_succ_of_ne_zero hsize
  rw [view, top, hn]
  rfl

/-- Putting a node where it belongs. -/
theorem keep_spec {node : MssMtNode} {hash : List Trit} (hD : 0 < D) (hnode : node.height < D)
    (hempty : node.levelIdx = 0 → node.height + 1 < D → (t.mtStacks node.height).size = 0) :
    ∃ t', keep D node hash t = some t' ∧ SameAt D (D - 1) t t' ∧
      (∀ h, t'.authPath h =
        if node.height = h ∧ node.levelIdx = 1 then hash else t.authPath h) ∧
      ∀ h, h + 1 < D →
        if node.height = h ∧ node.levelIdx = 0 then
          (t'.mtStacks h).size = 1 ∧ (t'.mtStacks h).height = (t.mtStacks h).height ∧
            t'.nodes (mssMtNodes h) = node ∧ t'.nodesHashes (mssMtNodes h) = hash
        else SameAt D h t t' := by
  have hsame : ∀ h, SameAt D h t t := fun _ => ⟨rfl, fun _ _ => rfl, fun _ _ => rfl⟩
  unfold keep
  by_cases hone : node.levelIdx = 1
  · rw [if_pos hone]
    refine ⟨_, rfl, ⟨rfl, fun _ _ => rfl, fun _ _ => rfl⟩, fun h => ?_, fun h _ => ?_⟩
    · by_cases heq : node.height = h
      · subst heq
        rw [if_pos ⟨rfl, hone⟩]
        exact Function.update_self _ _ _
      · rw [if_neg fun hand => heq hand.1]
        exact Function.update_of_ne (Ne.symm heq) _ _
    · rw [if_neg (by omega)]
      exact ⟨rfl, fun _ _ => rfl, fun _ _ => rfl⟩
  · rw [if_neg hone]
    have hpath : ∀ h, t.authPath h =
        if node.height = h ∧ node.levelIdx = 1 then hash else t.authPath h := by
      intro h
      rw [if_neg fun hand => hone hand.2]
    by_cases hleft : node.levelIdx = 0 ∧ node.height + 1 ≠ D
    · have hlt : node.height + 1 < D := by omega
      have hzero := hempty hleft.1 hlt
      have hpos : ∀ h, 0 < mssMtStackCapacity D h :=
        fun h => Nat.zero_lt_of_lt (lt_mssMtStackCapacity D h)
      dsimp only
      rw [if_pos hleft, if_neg (fun hne => hne hzero)]
      have hoff : ∀ h < D, h ≠ node.height → SameAt D h t
          { t with
            nodesHashes := Function.update t.nodesHashes (mssMtNodes node.height) hash
            nodes := Function.update t.nodes (mssMtNodes node.height) node
            mtStacks := Function.update t.mtStacks node.height
              { t.mtStacks node.height with size := 1 } } := fun h hh hne =>
        { mtStacks := Function.update_of_ne hne _ _
          nodes := fun i hi =>
            Function.update_of_ne (places_ne hh hnode hne hi (hpos node.height)) _ _
          nodesHashes := fun i hi =>
            Function.update_of_ne (places_ne hh hnode hne hi (hpos node.height)) _ _ }
      refine ⟨_, rfl, hoff _ (by omega) (by omega), hpath, fun h hh => ?_⟩
      by_cases heq : node.height = h
      · subst heq
        rw [if_pos ⟨rfl, hleft.1⟩]
        simp only [Function.update_self, and_self]
      · rw [if_neg fun hand => heq hand.1]
        exact hoff h (by omega) (Ne.symm heq)
    · rw [if_neg hleft]
      refine ⟨t, rfl, hsame _, hpath, fun h hh => ?_⟩
      rw [if_neg (by omega)]
      exact hsame h

/-- **A turn of the loop** below the root. -/
theorem Building.step (hb : Building T leaf D u t) (hD : 0 < D) (hu : u + 1 < 2 ^ (D + 1) - 1) :
    ∃ t₁ t₂, Traversal.update T leaf D (D - 1) t = some t₁ ∧
      (t₁.nodes (top (D - 1) t₁)).height ≠ D ∧
      keep D (t₁.nodes (top (D - 1) t₁)) (t₁.nodesHashes (top (D - 1) t₁)) t₁ = some t₂ ∧
      Building T leaf D (u + 1) t₂ := by
  have hlast : D - 1 < D := by omega
  -- a tower that is finished has made every node, and one more is to come
  have hf : ¬ Treehash.Finished D (t.view (D - 1)) := fun hf => by
    have hcount := (hb.tower.eq_of_finished hf).2
    omega
  have hstep := hb.tower.step hf
  have hroot : ¬ Treehash.Finished D
      (Treehash.step (mssHash2 T) leaf (t.state (D - 1))).nodes := fun hf => by
    have hcount := (hstep.eq_of_finished hf).2
    omega
  have hcap : D < mssMtStackCapacity D (D - 1) := by
    rw [mssMtStackCapacity, if_pos (by omega)]
    omega
  obtain ⟨t₁, hupdate, hframe, hheight, hstate⟩ :=
    update_step hlast hb.tower hb.height hcap (by omega) hf hroot
  have hsize : (t₁.mtStacks (D - 1)).size ≠ 0 := fun hzero => by
    have hne := Treehash.step_nodes_ne_nil (mssHash2 T) leaf (t.state (D - 1))
    rw [← hstate, ← List.length_pos_iff] at hne
    have hlen : (t₁.state (D - 1)).nodes.length = (t₁.mtStacks (D - 1)).size := length_view
    omega
  have hview := view_eq_cons hsize
  have hnodes : (Treehash.step (mssHash2 T) leaf (t.state (D - 1))).nodes = t₁.view (D - 1) :=
    congrArg Treehash.State.nodes hstate.symm
  rw [hview] at hnodes
  -- the node on top is made now, and no other one
  have hmade := fun k i => hb.tower.made_step (k := k) (i := i) hf hnodes
  have hlow := hstep.low hroot
  have hgenuine := hstep.genuine
  rw [← hstate] at hstep hmade
  rw [hnodes] at hlow hgenuine
  have hlt := hlow _ List.mem_cons_self
  have hhash := hgenuine _ List.mem_cons_self
  generalize hnode : t₁.nodes (top (D - 1) t₁) = node at *
  generalize hput : t₁.nodesHashes (top (D - 1) t₁) = hash at *
  have hhash : hash = nodeOf (mssHash2 T) leaf node.height node.levelIdx := hhash
  dsimp only at hlt hmade
  obtain ⟨t₂, hkeep, hsame, hpath, hleft⟩ := @keep_spec D t₁ node hash hD hlt
    (fun hzero hnext => by
      have hnot := (hmade node.height 0).2 ⟨rfl, hzero⟩
      have hempty := (hb.empty node.height hnext hnot).2
      rwa [(hframe.others node.height hlt (by omega)).mtStacks])
  have hcaps : (t₁.mtStacks (D - 1)).size ≤ mssMtStackCapacity D (D - 1) := by
    have hlen := hstep.length_le_succ
    have hsize : (t₁.state (D - 1)).nodes.length = (t₁.mtStacks (D - 1)).size := length_view
    omega
  have hstate₂ := hsame.state hcaps
  refine ⟨t₁, t₂, hupdate, by rw [hnode]; exact Nat.ne_of_lt hlt, by rw [hnode, hput]; exact hkeep,
    ?_, ?_, ?_, ?_, ?_⟩
  · rw [hsame.mtStacks]
    exact hheight
  · rwa [hstate₂]
  · intro h hh hnow
    rw [hstate₂, (hmade h 1).1] at hnow
    rw [hpath]
    by_cases hput : node.height = h ∧ node.levelIdx = 1
    · rw [if_pos hput, hhash, hput.1, hput.2]
    · rw [if_neg hput, hframe.authPath]
      exact hb.path h hh (hnow.resolve_right hput)
  · intro h hh hnow
    rw [hstate₂, (hmade h 0).1] at hnow
    have hat := hleft h hh
    by_cases hput : node.height = h ∧ node.levelIdx = 0
    · rw [if_pos hput] at hat
      obtain ⟨hsize, hheight, hnode, hput'⟩ := hat
      have hnot := (hmade h 0).2 hput
      have hempty := (hb.empty h hh hnot).1
      have hstack := (hframe.others h (by omega) (by omega)).mtStacks
      refine ⟨hheight.trans (hstack ▸ hempty), hsize, ?_, ?_⟩
      · rw [hnode, hput.1]
      · rw [hput', hhash, hput.1, hput.2]
    · rw [if_neg hput] at hat
      exact ((hb.left h hh (hnow.resolve_right hput)).sameAt
        (hframe.others h (by omega) (by omega))).sameAt hat
  · intro h hh hnot
    rw [hstate₂, (hmade h 0).1, not_or] at hnot
    have hat := hleft h hh
    rw [if_neg hnot.2] at hat
    rw [hat.mtStacks, (hframe.others h (by omega) (by omega)).mtStacks]
    exact hb.empty h hh hnot.1

/-- Before the root is worked out, the two nodes below it are there, and every other one has been
on top. -/
theorem Building.before_root (hb : Building T leaf D u t) (hD : 0 < D)
    (hu : u + 1 = 2 ^ (D + 1) - 1) :
    t.state (D - 1) = ⟨2 ^ D, [⟨D - 1, 1, nodeOf (mssHash2 T) leaf (D - 1) 1⟩,
      ⟨D - 1, 0, nodeOf (mssHash2 T) leaf (D - 1) 0⟩]⟩ := by
  have hf : ¬ Treehash.Finished D (t.state (D - 1)).nodes := fun hf => by
    have hcount := (hb.tower.eq_of_finished hf).2
    omega
  have hstep := hb.tower.step hf
  have hend := (hstep.eq_of_finished (hstep.finished_of_count hu.ge)).1
  unfold Treehash.step at hend
  by_cases hm : Treehash.Mergeable (t.state (D - 1)).nodes
  · rw [if_pos hm] at hend
    obtain ⟨k, i, rest, -, hnodes, hmerge, -⟩ := hb.tower.merge_cases hf hm
    rw [hmerge] at hend
    obtain ⟨hnext, hlist⟩ := Treehash.State.mk.inj hend
    obtain ⟨htop, rfl⟩ := List.cons.inj hlist
    obtain ⟨hk, rfl, -⟩ := Treehash.Node.mk.inj htop
    obtain rfl : k = D - 1 := by omega
    rw [Nat.zero_add, Nat.one_mul] at hnext
    generalize t.state (D - 1) = s at *
    obtain ⟨next, nodes⟩ := s
    obtain rfl : next = 2 ^ D := hnext
    exact congrArg _ hnodes
  · rw [if_neg hm] at hend
    have hzero := (Treehash.Node.mk.inj (List.cons.inj (Treehash.State.mk.inj hend).2).1).1
    omega

/-- **The last turn of the loop.** -/
theorem Building.root (hb : Building T leaf D u t) (hD : 0 < D) (hu : u + 1 = 2 ^ (D + 1) - 1) :
    ∃ t₁, Traversal.update T leaf D (D - 1) t = some t₁ ∧
      (t₁.nodes (top (D - 1) t₁)).height = D ∧
      t₁.nodesHashes (top (D - 1) t₁ + 1) = nodeOf (mssHash2 T) leaf D 0 ∧
      Ready T leaf D 0 (setStack (D - 1) ⟨D - 1, 0, 1⟩ t₁) := by
  have hlast : D - 1 < D := by omega
  have hstate := hb.before_root hD hu
  have hview : t.view (D - 1) = _ := congrArg Treehash.State.nodes hstate
  have hsize : (t.mtStacks (D - 1)).size = 2 := by
    rw [← length_view, hview]
    rfl
  have hcap : mssMtStackCapacity D (D - 1) = D + 1 := by
    rw [mssMtStackCapacity, if_pos (by omega)]
  have hframe : Frame D (D - 1) t (mergeTop T D (D - 1) t) :=
    frame_mergeTop hlast (by omega) (by omega)
  rw [view, hsize] at hview
  obtain ⟨hright, htail⟩ := List.cons.inj hview
  obtain ⟨hleft, -⟩ := List.cons.inj htail
  obtain ⟨hheight₁, -, hhash₁⟩ := Treehash.Node.mk.inj hright
  obtain ⟨hheight₀, -, hhash₀⟩ := Treehash.Node.mk.inj hleft
  rw [Nat.add_zero] at hheight₀ hhash₀
  have hstack : (mergeTop T D (D - 1) t).mtStacks (D - 1) =
      { t.mtStacks (D - 1) with size := 1 } := by
    refine (Function.update_self _ _ _).trans ?_
    rw [hsize]
  have htop : top (D - 1) (mergeTop T D (D - 1) t) = mssMtNodes (D - 1) := by
    rw [top, hstack]
    rfl
  have hplace : mssMtNodes (D - 1) + ((t.mtStacks (D - 1)).size - 2) = mssMtNodes (D - 1) := by
    omega
  -- the root's hash goes where the right one was
  have hwhere : ¬ (t.nodes (mssMtNodes (D - 1))).height + 1 ≠ D := by
    rw [hheight₀]
    omega
  have hnode : ((mergeTop T D (D - 1) t).nodes (mssMtNodes (D - 1))).height = D := by
    unfold mergeTop
    dsimp only
    rw [hplace, Function.update_self, hheight₀]
    exact Nat.sub_add_cancel hD
  have hhash : (mergeTop T D (D - 1) t).nodesHashes (mssMtNodes (D - 1)) =
      nodeOf (mssHash2 T) leaf (D - 1) 0 := by
    unfold mergeTop
    dsimp only
    rw [hplace, if_neg hwhere, Function.update_of_ne (by omega), hhash₀]
  have hroot : (mergeTop T D (D - 1) t).nodesHashes (mssMtNodes (D - 1) + 1) =
      nodeOf (mssHash2 T) leaf D 0 := by
    unfold mergeTop
    dsimp only
    rw [hplace, if_neg hwhere, Function.update_self, hhash₀, hhash₁,
      show nodeOf (mssHash2 T) leaf D 0 = nodeOf (mssHash2 T) leaf (D - 1 + 1) 0 by
        rw [Nat.sub_add_cancel hD], nodeOf]
  refine ⟨mergeTop T D (D - 1) t, ?_, by rw [htop]; exact hnode, by rw [htop]; exact hroot,
    fun h hh => ⟨?_, ?_⟩⟩
  · have hnodes : t.view (D - 1) = _ := congrArg Treehash.State.nodes hstate
    refine update_merge hlast ?_ (by rw [hnodes]; rfl)
    rw [hnodes, hb.height]
    exact Nat.not_le.mpr hlast
  · rw [Nat.zero_div]
    refine (congrFun hframe.authPath h).trans (hb.path h hh ?_)
    rw [hstate]
    have hpow : 2 ^ (h + 1) ≤ 2 ^ D := Nat.pow_le_pow_right (by decide) hh
    rw [pow_succ, Nat.mul_comm] at hpow
    rcases Nat.lt_or_eq_of_le hpow with hlt | heq
    · exact .inl hlt
    · exact .inr ⟨heq.symm, Nat.le_sub_one_of_lt hh⟩
  · have hlt : 0 / 2 ^ h + 1 < 2 ^ (D - h) := by
      rw [Nat.zero_div]
      exact Nat.one_lt_two_pow (by omega)
    rw [Level, if_pos hlt, Nat.zero_div]
    refine .done ?_
    by_cases heq : h = D - 1
    · subst heq
      refine ⟨?_, ?_, hlast.le.trans hnode.ge, hhash⟩ <;> rw [setStack_self]
    · have hdone : Done T leaf h 0 t := by
        refine hb.left h (by omega) ?_
        rw [hstate]
        refine .inl ?_
        rw [Nat.zero_add, Nat.one_mul]
        exact Nat.pow_lt_pow_right (by decide) hh
      exact (hdone.sameAt (hframe.others h hh heq)).sameAt (D := D)
        ⟨setStack_of_ne heq, fun _ _ => rfl, fun _ _ => rfl⟩

/-- **The loop ends with the root.** -/
theorem genLoop_spec (hD : 0 < D) (fuel : ℕ) (hb : Building T leaf D u t)
    (hu : u + 1 ≤ 2 ^ (D + 1) - 1) (hfuel : 2 ^ (D + 1) - 1 ≤ u + fuel) :
    ∃ t', genLoop T leaf D fuel t = some (t', nodeOf (mssHash2 T) leaf D 0) ∧
      Ready T leaf D 0 t' := by
  induction fuel generalizing u t with
  | zero => omega
  | succ fuel ih =>
    rcases Nat.lt_or_eq_of_le hu with hlt | heq
    · obtain ⟨t₁, t₂, hupdate, hne, hkeep, hb'⟩ := hb.step hD hlt
      obtain ⟨t', hrest, hready⟩ := ih hb' hlt (by omega)
      refine ⟨t', ?_, hready⟩
      rw [genLoop, hupdate, Option.bind_eq_bind, Option.bind_some]
      dsimp only
      rw [if_neg hne, hkeep, Option.bind_some, hrest]
    · obtain ⟨t₁, hupdate, htop, hroot, hready⟩ := hb.root hD heq
      refine ⟨_, ?_, hready⟩
      rw [genLoop, hupdate, Option.bind_eq_bind, Option.bind_some]
      dsimp only
      rw [if_pos htop, hroot]

theorem building_init (hD : 0 < D) :
    Building T leaf D 0 (setStack (D - 1) ⟨D, 0, 0⟩ init) := by
  have hstack : (setStack (D - 1) ⟨D, 0, 0⟩ init).mtStacks (D - 1) = ⟨D, 0, 0⟩ := setStack_self
  have hstate : (setStack (D - 1) ⟨D, 0, 0⟩ init).state (D - 1) = ⟨0, []⟩ := by
    rw [state, view, hstack]
    rfl
  refine ⟨congrArg MssMtStack.height hstack, ?_, fun h _ hmade => ?_, fun h _ hmade => ?_,
    fun h hh _ => ?_⟩
  · have hempty := @Treehash.Tower.empty _ (mssHash2 T) leaf D 0
    rwa [Nat.zero_mul, ← hstate] at hempty
  · exact absurd (hstate ▸ hmade) (Treehash.not_made_empty h 1)
  · exact absurd (hstate ▸ hmade) (Treehash.not_made_empty h 0)
  · rw [setStack_of_ne (by omega)]
    exact ⟨rfl, rfl⟩

/-- **The first path.** -/
theorem gen_spec (T : Troika) (leaf : ℕ → List Trit) (D : ℕ) :
    ∃ t, gen T leaf D = some (t, nodeOf (mssHash2 T) leaf D 0) ∧ Ready T leaf D 0 t := by
  unfold gen
  by_cases hD : D = 0
  · subst hD
    exact ⟨init, rfl, fun h hh => absurd hh (Nat.not_lt_zero h)⟩
  · rw [if_neg hD]
    have hpos : 1 ≤ D := Nat.pos_of_ne_zero hD
    have hpow : 2 ^ (1 + 1) ≤ 2 ^ (D + 1) := Nat.pow_le_pow_right (by decide) (by omega)
    exact genLoop_spec hpos _ (building_init hpos) (by omega) (by omega)

theorem path_eq {n k : ℕ} {f : ℕ → List Trit}
    (hf : ∀ h, k ≤ h → h < k + n → f h = nodeOf (mssHash2 T) leaf h (sibling (w / 2 ^ (h - k)))) :
    ((List.range' k n).map f).flatten = (PerfectTree.path (mssHash2 T) leaf n k w).flatten := by
  induction n generalizing k w with
  | zero => rfl
  | succ n ih =>
    rw [List.range'_succ, List.map_cons, List.flatten_cons, PerfectTree.path, List.flatten_cons,
      hf k le_rfl (by omega), Nat.sub_self, pow_zero, Nat.div_one, ih]
    intro h hle hlt
    rw [hf h (by omega) (by omega), Nat.div_div_eq_div_mul, ← pow_succ',
      show h - (k + 1) + 1 = h - k by omega]

/-- The path of the current key is the one in the tree. -/
theorem Ready.path {skn : ℕ} (hready : Ready T leaf D skn t) :
    t.path D = (PerfectTree.path (mssHash2 T) leaf D 0 skn).flatten := by
  rw [Traversal.path, List.range_eq_range']
  refine path_eq fun h _ hh => ?_
  rw [(hready h (by omega)).1, Nat.sub_zero]

end

end Traversal

/-- `mss_traversal.c`. There is no tree once an assertion has failed. -/
def traversal : MerkleMode where
  Tree := Option Traversal
  gen T leaf height :=
    ((Traversal.gen T leaf height).map Prod.fst, ((Traversal.gen T leaf height).map Prod.snd).getD [])
  authPath t height _ := (t.map (Traversal.path height)).getD []
  next T leaf height skn t := t >>= Traversal.next T leaf height skn
  Ready T leaf height skn t := ∃ t', t = some t' ∧ Traversal.Ready T leaf height skn t'
  gen_root T leaf height := by
    obtain ⟨t, hgen, -⟩ := Traversal.gen_spec T leaf height
    rw [hgen]
    rfl
  ready_gen T leaf height := by
    obtain ⟨t, hgen, hready⟩ := Traversal.gen_spec T leaf height
    rw [hgen]
    exact ⟨t, rfl, hready⟩
  ready_next := by
    rintro T leaf height skn _ hskn ⟨t, rfl, hready⟩
    obtain ⟨t', hnext, hready'⟩ := hready.next hskn
    exact ⟨t', hnext, hready'⟩
  authPath_ready := by
    rintro T leaf height skn _ - ⟨t, rfl, hready⟩
    exact hready.path

end Mam

end Entangled
