import Entangled.Common.PerfectTree
import Mathlib.Algebra.Order.Ring.Nat
import Mathlib.Data.List.Perm.Subperm
import Mathlib.Tactic.Linarith
/-!
# Building a node with a stack

A node of a perfect tree can be worked out with a stack that never holds more values than the tree
has levels. A step puts the next leaf on top, or, where the two values on top are on one level,
puts the value above them in their place.

`Tower` says what such a stack looks like on the way to the node of height `h` and place `w`. It is
what a step keeps; it counts the steps, so that the node is known to be there after
`2 ^ (h + 1) - 1` of them and not before, and it gives the place each new value is for.
-/

namespace Entangled

namespace Treehash

open PerfectTree

/-- A value with the node it is for. -/
structure Node (α : Type*) where
  height : ℕ
  idx : ℕ
  hash : α

variable {α : Type*}

/-- The first leaf below the node. -/
def Node.start (n : Node α) : ℕ := n.idx * 2 ^ n.height

/-- The leaf after the last one below the node. -/
def Node.stop (n : Node α) : ℕ := (n.idx + 1) * 2 ^ n.height

theorem Node.stop_eq (n : Node α) : n.stop = n.start + 2 ^ n.height := by
  rw [Node.stop, Node.start]
  ring

theorem Node.start_lt_stop (n : Node α) : n.start < n.stop := by
  have hpos := Nat.two_pow_pos n.height
  rw [n.stop_eq]
  omega

/-- The stack, the top first, and the leaf that comes next. -/
structure State (α : Type*) where
  next : ℕ
  nodes : List (Node α)

variable (combine : α → α → α) (leaf : ℕ → α)

/-- The leaf `i`. -/
def leafNode (i : ℕ) : Node α := ⟨0, i, leaf i⟩

/-- The node above two. -/
def parent (right left : Node α) : Node α :=
  ⟨left.height + 1, left.idx / 2, combine left.hash right.hash⟩

/-- The top two values are on one level. -/
def Mergeable : List (Node α) → Prop
  | right :: left :: _ => left.height = right.height
  | _ => False

instance (l : List (Node α)) : Decidable (Mergeable l) :=
  match l with
  | [] => inferInstanceAs (Decidable False)
  | [_] => inferInstanceAs (Decidable False)
  | right :: left :: _ => inferInstanceAs (Decidable (left.height = right.height))

/-- Puts the value above the top two in their place. -/
def merge : List (Node α) → List (Node α)
  | right :: left :: rest => parent combine right left :: rest
  | l => l

/-- One step. -/
def step (s : State α) : State α :=
  if Mergeable s.nodes then ⟨s.next, merge combine s.nodes⟩
  else ⟨s.next + 1, leafNode leaf s.next :: s.nodes⟩

/-- The nodes of the stack are next to each other, from `lo` to `hi`. -/
def Tiles (lo : ℕ) : ℕ → List (Node α) → Prop
  | hi, [] => hi = lo
  | hi, n :: l => n.stop = hi ∧ Tiles lo n.start l

/-- The value is the one the tree has there. -/
def Genuine (n : Node α) : Prop := n.hash = nodeOf combine leaf n.height n.idx

/-- The stack on the way to the node of height `h` and place `w`, after `u` steps. -/
structure Tower (h w u : ℕ) (s : State α) : Prop where
  tiles : Tiles (w * 2 ^ h) s.next s.nodes
  genuine : ∀ n ∈ s.nodes, Genuine combine leaf n
  sorted : s.nodes.Pairwise (fun m n => m.height ≤ n.height)
  strict : s.nodes.tail.Pairwise (fun m n => m.height < n.height)
  next_le : s.next ≤ (w + 1) * 2 ^ h
  count : 2 * s.next = 2 * (w * 2 ^ h) + s.nodes.length + u

variable {combine leaf} {lo hi h w u : ℕ} {n : Node α} {l : List (Node α)} {s : State α}

theorem Tiles.le (ht : Tiles lo hi l) : lo ≤ hi := by
  induction l generalizing hi with
  | nil => exact ht.ge
  | cons n l ih =>
    have hle := ih ht.2
    have hlt := n.start_lt_stop
    have hstop := ht.1
    omega

theorem Tiles.bounds (ht : Tiles lo hi l) : ∀ n ∈ l, lo ≤ n.start ∧ n.stop ≤ hi := by
  induction l generalizing hi with
  | nil => intro n hn; cases hn
  | cons m l ih =>
    intro n hn
    have hlt := m.start_lt_stop
    have hstop := ht.1
    rcases List.mem_cons.mp hn with rfl | hn
    · exact ⟨ht.2.le, hstop.le⟩
    · obtain ⟨hlo, hhi⟩ := ih ht.2 n hn
      exact ⟨hlo, by omega⟩

/-- Where no node is lower than `k`, nothing is off the grid of that level. -/
theorem Tiles.dvd {k : ℕ} (ht : Tiles lo hi l) (hlo : 2 ^ k ∣ lo) (hk : ∀ n ∈ l, k ≤ n.height) :
    2 ^ k ∣ hi := by
  cases l with
  | nil => exact ht ▸ hlo
  | cons n l =>
    have hpow : 2 ^ k ∣ 2 ^ n.height := pow_dvd_pow 2 (hk n List.mem_cons_self)
    rw [← ht.1]
    exact Dvd.dvd.mul_left hpow _

/-- **Levels that grow leave room.** -/
theorem Tiles.room (ht : Tiles lo hi (n :: l)) (hup : (n :: l).Pairwise (·.height < ·.height))
    (hlow : ∀ m ∈ n :: l, m.height < h) : hi + 2 ^ n.height ≤ lo + 2 ^ h := by
  induction l generalizing n hi with
  | nil =>
    have hstart : n.start = lo := ht.2
    have hpow : 2 ^ (n.height + 1) ≤ 2 ^ h :=
      Nat.pow_le_pow_right (by decide) (hlow n List.mem_cons_self)
    have hstop := ht.1
    rw [n.stop_eq] at hstop
    rw [pow_succ] at hpow
    omega
  | cons m l ih =>
    have hroom := ih ht.2 hup.tail (fun k hk => hlow k (List.mem_cons_of_mem _ hk))
    have hlt : n.height < m.height := List.rel_of_pairwise_cons hup List.mem_cons_self
    have hpow : 2 ^ (n.height + 1) ≤ 2 ^ m.height := Nat.pow_le_pow_right (by decide) hlt
    have hstop := ht.1
    rw [n.stop_eq] at hstop
    rw [pow_succ] at hpow
    omega

/-- Where the levels above it grow, a value is one on the left. -/
theorem Tiles.even (ht : Tiles (w * 2 ^ h) hi (n :: l)) (hup : (n :: l).Pairwise (·.height < ·.height))
    (hn : n.height < h) : 2 ∣ n.idx := by
  have hlo : 2 ^ (n.height + 1) ∣ w * 2 ^ h := Dvd.dvd.mul_left (pow_dvd_pow 2 hn) _
  have hstart : 2 ^ (n.height + 1) ∣ n.start :=
    ht.2.dvd hlo fun k hk => List.rel_of_pairwise_cons hup hk
  rw [Node.start, pow_succ, Nat.mul_comm (2 ^ n.height) 2] at hstart
  exact Nat.dvd_of_mul_dvd_mul_right (Nat.two_pow_pos _) hstart

/-- Levels that grow and stay below `h` are no more than `h`. -/
theorem length_le_of_heights (hup : l.Pairwise (·.height < ·.height))
    (hlow : ∀ m ∈ l, m.height < h) : l.length ≤ h := by
  have hnodup : (l.map Node.height).Nodup :=
    List.Pairwise.map Node.height (fun _ _ hlt => Nat.ne_of_lt hlt) hup
  have hsub : l.map Node.height ⊆ List.range h := by
    intro k hk
    obtain ⟨m, hm, rfl⟩ := List.mem_map.mp hk
    exact List.mem_range.mpr (hlow m hm)
  have hle := (List.subperm_of_subset hnodup hsub).length_le
  rwa [List.length_map, List.length_range] at hle

/-- The top value is as high as `h`. -/
def Finished (h : ℕ) : List (Node α) → Prop
  | [] => False
  | n :: _ => h ≤ n.height

instance (h : ℕ) (l : List (Node α)) : Decidable (Finished h l) :=
  match l with
  | [] => inferInstanceAs (Decidable False)
  | n :: _ => inferInstanceAs (Decidable (h ≤ n.height))

namespace Tower

/-- An empty stack, at the first leaf. -/
theorem empty (h w : ℕ) : Tower combine leaf h w 0 ⟨w * 2 ^ h, []⟩ where
  tiles := rfl
  genuine := fun _ hn => absurd hn List.not_mem_nil
  sorted := List.Pairwise.nil
  strict := List.Pairwise.nil
  next_le := Nat.mul_le_mul_right _ (Nat.le_succ w)
  count := rfl

variable (ht : Tower combine leaf h w u s)

include ht

/-- Before the end no value is as high as the one to be worked out. -/
theorem low (hf : ¬ Finished h s.nodes) : ∀ m ∈ s.nodes, m.height < h := by
  have htiles := ht.tiles
  have hle := ht.next_le
  generalize s.nodes = nodes at *
  cases nodes with
  | nil => intro m hm; cases hm
  | cons n l =>
    intro m hm
    rcases List.mem_cons.mp hm with rfl | hm
    · exact Nat.lt_of_not_le hf
    · obtain ⟨hlo, hhi⟩ := htiles.2.bounds m hm
      have hlt := n.start_lt_stop
      have hstop := htiles.1
      have hwidth := m.stop_eq
      have hpow : 2 ^ m.height < 2 ^ h := by
        rw [Nat.add_mul, Nat.one_mul] at hle
        omega
      exact (Nat.pow_lt_pow_iff_right (by decide)).mp hpow

/-- Where the top two values are not on one level, no two are. -/
theorem strict_of_not_mergeable (hm : ¬ Mergeable s.nodes) :
    s.nodes.Pairwise (·.height < ·.height) := by
  have hsorted := ht.sorted
  have hstrict := ht.strict
  generalize s.nodes = nodes at *
  match nodes with
  | [] => exact List.Pairwise.nil
  | [n] => exact List.pairwise_singleton _ _
  | n :: m :: l =>
    have hle : n.height ≤ m.height := List.rel_of_pairwise_cons hsorted List.mem_cons_self
    have hne : ¬ m.height = n.height := hm
    refine List.Pairwise.cons (fun k hk => ?_) hstrict
    rcases List.mem_cons.mp hk with rfl | hk
    · omega
    · have hlt : m.height < k.height := List.rel_of_pairwise_cons hstrict hk
      omega

/-- **There is room for one more value.** -/
theorem length_le (hf : ¬ Finished h s.nodes) (hm : ¬ Mergeable s.nodes) : s.nodes.length ≤ h :=
  length_le_of_heights (ht.strict_of_not_mergeable hm) (ht.low hf)

/-- **There is a leaf left.** -/
theorem next_lt (hf : ¬ Finished h s.nodes) (hm : ¬ Mergeable s.nodes) :
    s.next < (w + 1) * 2 ^ h := by
  have hup := ht.strict_of_not_mergeable hm
  have hlow := ht.low hf
  have htiles := ht.tiles
  have hpos := Nat.two_pow_pos h
  rw [Nat.add_mul, Nat.one_mul]
  generalize s.nodes = nodes at *
  cases nodes with
  | nil =>
    have hnext : s.next = w * 2 ^ h := htiles
    omega
  | cons n l =>
    have hroom := htiles.room hup hlow
    have hpos := Nat.two_pow_pos n.height
    omega

/-- **What a merge does.** -/
theorem merge_cases (hf : ¬ Finished h s.nodes) (hm : Mergeable s.nodes) :
    ∃ k i rest, k < h ∧
      s.nodes = ⟨k, 2 * i + 1, nodeOf combine leaf k (2 * i + 1)⟩ ::
        ⟨k, 2 * i, nodeOf combine leaf k (2 * i)⟩ :: rest ∧
      merge combine s.nodes = ⟨k + 1, i, nodeOf combine leaf (k + 1) i⟩ :: rest ∧
      s.next = (i + 1) * 2 ^ (k + 1) := by
  have hlow := ht.low hf
  have htiles := ht.tiles
  have hgenuine := ht.genuine
  have hstrict := ht.strict
  generalize s.nodes = nodes at *
  match nodes, hm with
  | right :: left :: rest, (hheight : left.height = right.height) =>
    have hleft : left.hash = nodeOf combine leaf left.height left.idx :=
      hgenuine left (List.mem_cons_of_mem _ List.mem_cons_self)
    have hright : right.hash = nodeOf combine leaf right.height right.idx :=
      hgenuine right List.mem_cons_self
    have hk : left.height < h := hlow left (List.mem_cons_of_mem _ List.mem_cons_self)
    obtain ⟨i, hi⟩ := htiles.2.even hstrict hk
    have hstop : left.stop = right.start := htiles.2.1
    have hnext : right.stop = s.next := htiles.1
    obtain ⟨k, a, x⟩ := left
    obtain ⟨k', b, y⟩ := right
    dsimp only at hheight hleft hright hk hi
    subst hheight hi hleft hright
    have hb : b = 2 * i + 1 :=
      (Nat.eq_of_mul_eq_mul_right (Nat.two_pow_pos k) hstop).symm
    subst hb
    refine ⟨k, i, rest, hk, rfl, ?_, ?_⟩
    · rw [merge, parent]
      dsimp only
      rw [Nat.mul_div_cancel_left i (by decide), nodeOf]
    · rw [← hnext, Node.stop, pow_succ]
      ring

/-- **A step keeps the tower.** -/
theorem step (hf : ¬ Finished h s.nodes) :
    Tower combine leaf h w (u + 1) (Treehash.step combine leaf s) := by
  have hcount := ht.count
  unfold Treehash.step
  by_cases hm : Mergeable s.nodes
  · rw [if_pos hm]
    obtain ⟨k, i, rest, hk, hnodes, hmerge, hnext⟩ := ht.merge_cases hf hm
    have htiles := ht.tiles
    have hgenuine := ht.genuine
    have hsorted := ht.sorted
    have hstrict := ht.strict
    rw [hmerge]
    rw [hnodes] at htiles hgenuine hsorted hstrict hcount
    have hrest : Tiles (w * 2 ^ h) (2 * i * 2 ^ k) rest := htiles.2.2
    refine ⟨⟨hnext.symm, ?_⟩, fun n hn => ?_, ?_, hstrict.tail, ht.next_le, ?_⟩
    · have hstart : (⟨k + 1, i, nodeOf combine leaf (k + 1) i⟩ : Node α).start = 2 * i * 2 ^ k := by
        rw [Node.start, pow_succ]
        ring
      rwa [hstart]
    · rcases List.mem_cons.mp hn with rfl | hn
      · rfl
      · exact hgenuine n (List.mem_cons_of_mem _ (List.mem_cons_of_mem _ hn))
    · exact List.Pairwise.cons (fun n hn => List.rel_of_pairwise_cons hstrict hn) hsorted.tail.tail
    · rw [List.length_cons, List.length_cons] at hcount
      rw [List.length_cons]
      dsimp only
      omega
  · rw [if_neg hm]
    have hstop : (leafNode leaf s.next).stop = s.next + 1 := Nat.mul_one _
    have hstart : (leafNode leaf s.next).start = s.next := Nat.mul_one _
    refine ⟨⟨hstop, hstart.symm ▸ ht.tiles⟩, fun n hn => ?_,
      List.Pairwise.cons (fun n _ => Nat.zero_le _) ht.sorted,
      ht.strict_of_not_mergeable hm, ht.next_lt hf hm, ?_⟩
    · rcases List.mem_cons.mp hn with rfl | hn
      · rfl
      · exact ht.genuine n hn
    · rw [List.length_cons]
      dsimp only
      omega

/-- **At the end** the one value is that of the node. -/
theorem eq_of_finished (hf : Finished h s.nodes) :
    s = ⟨(w + 1) * 2 ^ h, [⟨h, w, nodeOf combine leaf h w⟩]⟩ ∧ u = 2 ^ (h + 1) - 1 := by
  have htiles := ht.tiles
  have hle := ht.next_le
  have hcount := ht.count
  have hgenuine := ht.genuine
  obtain ⟨next, nodes⟩ := s
  match nodes, hf with
  | n :: l, (hn : h ≤ n.height) =>
    have hpow : 2 ^ h ≤ 2 ^ n.height := Nat.pow_le_pow_right (by decide) hn
    have hlo := htiles.2.le
    have hwidth := n.stop_eq
    have hstop : n.stop = next := htiles.1
    have hhash : n.hash = nodeOf combine leaf n.height n.idx := hgenuine n List.mem_cons_self
    dsimp only at hle hcount
    have hroom : (w + 1) * 2 ^ h = w * 2 ^ h + 2 ^ h := by ring
    have heq : 2 ^ n.height = 2 ^ h := by omega
    have hheight : n.height = h := Nat.pow_right_injective le_rfl heq
    have hl : l = [] := by
      cases l with
      | nil => rfl
      | cons m l =>
        obtain ⟨hm, hm'⟩ := htiles.2.bounds m List.mem_cons_self
        have hlt := m.start_lt_stop
        omega
    subst hl
    obtain ⟨k, a, x⟩ := n
    dsimp only at hheight hhash
    subst hheight hhash
    have ha : a = w := by
      have hstart : a * 2 ^ k = w * 2 ^ k := htiles.2
      exact Nat.eq_of_mul_eq_mul_right (Nat.two_pow_pos k) hstart
    subst ha
    have hnext : next = (a + 1) * 2 ^ k := by omega
    subst hnext
    refine ⟨rfl, ?_⟩
    rw [List.length_singleton] at hcount
    rw [pow_succ]
    omega

/-- No value is higher than the one to be worked out. -/
theorem not_finished_of_lt {k : ℕ} (hk : h < k) : ¬ Finished k s.nodes := by
  intro hf
  by_cases hh : Finished h s.nodes
  · rw [(ht.eq_of_finished hh).1] at hf
    exact Nat.not_le.mpr hk hf
  · have hlow := ht.low hh
    generalize s.nodes = nodes at *
    cases nodes with
    | nil => exact hf
    | cons n l =>
      have hlt := hlow n List.mem_cons_self
      have hge : k ≤ n.height := hf
      omega

/-- The stack never holds more values than the tree has levels. -/
theorem length_le_succ : s.nodes.length ≤ h + 1 := by
  by_cases hf : Finished h s.nodes
  · rw [(ht.eq_of_finished hf).1]
    exact Nat.le_add_left 1 h
  · have htail := length_le_of_heights ht.strict fun m hm => ht.low hf m (List.mem_of_mem_tail hm)
    rw [List.length_tail] at htail
    omega

/-- **The end is reached in time.** -/
theorem finished_of_count (hu : 2 ^ (h + 1) - 1 ≤ u) : Finished h s.nodes := by
  by_contra hf
  have hcount := ht.count
  have hle := ht.next_le
  have htiles := ht.tiles
  have hlow := ht.low hf
  have hroom : (w + 1) * 2 ^ h = w * 2 ^ h + 2 ^ h := by ring
  have hpos := Nat.two_pow_pos h
  rw [pow_succ] at hu
  generalize s.nodes = nodes at *
  cases nodes with
  | nil =>
    have hnext : s.next = w * 2 ^ h := htiles
    rw [List.length_nil] at hcount
    omega
  | cons n l =>
    rw [List.length_cons] at hcount
    have hl : l.length = 0 := by omega
    obtain rfl := List.length_eq_zero_iff.mp hl
    have hstart : n.start = w * 2 ^ h := htiles.2
    have hstop : n.stop = s.next := htiles.1
    have hwidth := n.stop_eq
    have hlt : n.height < h := hlow n List.mem_cons_self
    have hpow : 2 ^ n.height < 2 ^ h := Nat.pow_lt_pow_right (by decide) hlt
    omega

end Tower

theorem step_nodes_ne_nil (combine : α → α → α) (leaf : ℕ → α) (s : State α) :
    (step combine leaf s).nodes ≠ [] := by
  obtain ⟨next, nodes⟩ := s
  unfold step
  split_ifs with hm
  · match nodes, hm with
    | _ :: _ :: _, _ => exact List.cons_ne_nil _ _
  · exact List.cons_ne_nil _ _

/-! ## The nodes on the way

From the first leaf on, each node of the tree is on top once. -/

/-- The value of the node has been on top. -/
def Made (k i : ℕ) (s : State α) : Prop :=
  (i + 1) * 2 ^ k < s.next ∨ s.next = (i + 1) * 2 ^ k ∧ Finished k s.nodes

theorem not_made_empty (k i : ℕ) : ¬ Made k i (⟨0, []⟩ : State α) := by
  rintro (hlt | ⟨-, hf⟩)
  · exact Nat.not_lt_zero _ hlt
  · exact hf

variable (ht : Tower combine leaf h 0 u s)

include ht

/-- Behind the last leaf below a node, its value is there before the next leaf is put on. -/
theorem Tower.finished_of_stop {k i : ℕ} (hf : ¬ Finished h s.nodes) (hm : ¬ Mergeable s.nodes)
    (hnext : s.next = (i + 1) * 2 ^ k) : Finished k s.nodes := by
  have hup := ht.strict_of_not_mergeable hm
  have hlow := ht.low hf
  have htiles := ht.tiles
  have hpos : 0 < (i + 1) * 2 ^ k := Nat.mul_pos i.succ_pos (Nat.two_pow_pos k)
  generalize s.nodes = nodes at *
  cases nodes with
  | nil =>
    have hzero : s.next = 0 * 2 ^ h := htiles
    omega
  | cons n l =>
    have heven := htiles.even hup (hlow n List.mem_cons_self)
    have hstop : (n.idx + 1) * 2 ^ n.height = (i + 1) * 2 ^ k := htiles.1.trans hnext
    by_contra hlt
    obtain ⟨d, hd⟩ := Nat.exists_eq_add_of_lt (Nat.lt_of_not_le hlt)
    have hodd : n.idx + 1 = 2 * ((i + 1) * 2 ^ d) := by
      refine Nat.eq_of_mul_eq_mul_right (Nat.two_pow_pos n.height) ?_
      rw [hstop, hd]
      ring
    omega

/-- **A node is made when it is on top, and only then.** -/
theorem Tower.made_step {k i : ℕ} (hf : ¬ Finished h s.nodes)
    (hn : (Treehash.step combine leaf s).nodes = n :: l) :
    (Made k i (Treehash.step combine leaf s) ↔ Made k i s ∨ n.height = k ∧ n.idx = i) ∧
      (n.height = k ∧ n.idx = i → ¬ Made k i s) := by
  have hpos : 0 < 2 ^ k := Nat.two_pow_pos k
  unfold Treehash.step at hn ⊢
  by_cases hm : Mergeable s.nodes
  · rw [if_pos hm] at hn ⊢
    obtain ⟨k', i', rest, -, hnodes, hmerge, hnext⟩ := ht.merge_cases hf hm
    rw [hmerge] at hn ⊢
    obtain ⟨rfl, rfl⟩ := List.cons.inj hn
    have hplace : k' + 1 = k → (s.next = (i + 1) * 2 ^ k ↔ i' = i) := by
      rintro rfl
      rw [hnext]
      constructor
      · intro heq
        exact Nat.succ_injective (Nat.eq_of_mul_eq_mul_right hpos heq)
      · rintro rfl
        rfl
    simp only [Made, hnodes, Finished]
    omega
  · rw [if_neg hm] at hn ⊢
    obtain ⟨rfl, rfl⟩ := List.cons.inj hn
    have hstop : s.next = (i + 1) * 2 ^ k → Finished k s.nodes := ht.finished_of_stop hf hm
    have hleaf : k = 0 → (i + 1) * 2 ^ k = i + 1 := by
      rintro rfl
      exact Nat.mul_one _
    simp only [Made, leafNode]
    generalize Finished k s.nodes = F at *
    simp only [Finished]
    refine ⟨⟨?_, ?_⟩, ?_⟩
    · rintro (hlt | ⟨heq, hk⟩)
      · rcases Nat.lt_or_eq_of_le (Nat.le_of_lt_succ hlt) with hlt | heq
        · exact .inl (.inl hlt)
        · exact .inl (.inr ⟨heq.symm, hstop heq.symm⟩)
      · exact .inr (by omega)
    · rintro ((hlt | ⟨heq, -⟩) | ⟨hk, hi⟩) <;> omega
    · rintro ⟨hk, hi⟩ (hlt | ⟨heq, -⟩) <;> omega

end Treehash

end Entangled
