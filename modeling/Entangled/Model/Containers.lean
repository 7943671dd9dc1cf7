import Entangled.Model.Types
/-!
# Hash sets and the tips cache

A `hash243_set` is iterated in the order of insertion, so it is a list that an
insertion extends at the end. The tips cache keeps the solid and the non-solid
tips in two such sets, and makes room in a full one by dropping its oldest hash.
-/

namespace Entangled

variable {Hash : Type} [DecidableEq Hash]

/-- `hash243_set_add`. -/
def hashSetAdd (s : List Hash) (h : Hash) : List Hash := if h ∈ s then s else s ++ [h]

/-- `hash243_set_append`. -/
def hashSetAppend (s : List Hash) (hs : List Hash) : List Hash := hs.foldl hashSetAdd s

/-- `hash243_set_remove`. -/
def hashSetRemove (s : List Hash) (h : Hash) : List Hash := s.filter fun x => decide (x ≠ h)

@[simp] theorem mem_hashSetAdd {s : List Hash} {h x : Hash} :
    x ∈ hashSetAdd s h ↔ x ∈ s ∨ x = h := by
  unfold hashSetAdd
  split
  · rename_i hm
    refine ⟨.inl, fun hx => hx.elim id fun he => he ▸ hm⟩
  · simp

theorem hashSetAdd_of_mem {s : List Hash} {h : Hash} (hm : h ∈ s) : hashSetAdd s h = s := if_pos hm

theorem hashSetAdd_of_not_mem {s : List Hash} {h : Hash} (hn : h ∉ s) :
    hashSetAdd s h = s ++ [h] := if_neg hn

@[simp] theorem mem_hashSetAppend {s hs : List Hash} {x : Hash} :
    x ∈ hashSetAppend s hs ↔ x ∈ s ∨ x ∈ hs := by
  induction hs generalizing s with
  | nil => simp [hashSetAppend]
  | cons h hs ih =>
    rw [hashSetAppend, List.foldl_cons, ← hashSetAppend, ih, mem_hashSetAdd, List.mem_cons,
      or_assoc]

@[simp] theorem mem_hashSetRemove {s : List Hash} {h x : Hash} :
    x ∈ hashSetRemove s h ↔ x ∈ s ∧ x ≠ h := by
  simp [hashSetRemove]

theorem nodup_hashSetAdd {s : List Hash} {h : Hash} (hs : s.Nodup) : (hashSetAdd s h).Nodup := by
  unfold hashSetAdd
  split
  · exact hs
  · rename_i hh
    exact List.nodup_append.mpr ⟨hs, List.nodup_singleton h, fun a ha b hb he =>
      hh (List.mem_singleton.mp hb ▸ he ▸ ha)⟩

theorem nodup_hashSetAppend {s hs : List Hash} (h : s.Nodup) : (hashSetAppend s hs).Nodup := by
  induction hs generalizing s with
  | nil => exact h
  | cons x hs ih => exact ih (nodup_hashSetAdd h)

theorem nodup_hashSetRemove {s : List Hash} {h : Hash} (hs : s.Nodup) :
    (hashSetRemove s h).Nodup :=
  hs.filter _

/-- `tips_cache_t`. -/
structure TipsCache (Hash : Type) where
  tips : List Hash
  solidTips : List Hash
  capacity : ℕ

namespace TipsCache

/-- `tips_cache_fifo_add`. -/
def fifoAdd (set : List Hash) (capacity : ℕ) (tip : Hash) : List Hash :=
  hashSetAdd (if capacity ≤ set.length then set.tail else set) tip

/-- `tips_cache_add`. -/
def add (c : TipsCache Hash) (tip : Hash) : TipsCache Hash :=
  { c with tips := fifoAdd c.tips c.capacity tip }

/-- `tips_cache_remove`. -/
def remove (c : TipsCache Hash) (tip : Hash) : TipsCache Hash :=
  { c with tips := hashSetRemove c.tips tip, solidTips := hashSetRemove c.solidTips tip }

/-- `tips_cache_set_solid`. -/
def setSolid (c : TipsCache Hash) (tip : Hash) : TipsCache Hash :=
  if tip ∈ c.tips then
    { c with
      tips := hashSetRemove c.tips tip
      solidTips := fifoAdd c.solidTips c.capacity tip }
  else c

end TipsCache

end Entangled
