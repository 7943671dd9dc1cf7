import Entangled.Model.Containers
/-!
# Bounded sets of hashes

The tips cache and the transaction requester keep sets of a bounded size, in the
order of insertion: a full set loses its oldest hash, and only then is the new
one put in, unless it is there. Whether the `malloc` of an entry fails is told by
the caller.
-/

namespace Entangled

variable {Hash : Type} [DecidableEq Hash] {s stack : List Hash} {h x : Hash} {capacity : ℕ}
  {oom : Bool}

/-- `hash243_set_add`, when the `malloc` of a new entry may fail. -/
def setAdd (oom : Bool) (s : List Hash) (h : Hash) : List Hash := if oom then s else hashSetAdd s h

/-- The room that is made: `hash243_set_remove_entry` of the first entry of a full set. -/
def evict (capacity : ℕ) (s : List Hash) : List Hash := if capacity ≤ s.length then s.tail else s

/-- `tips_cache_fifo_add`, and the same steps in `request_transaction`. -/
def boundedAdd (oom : Bool) (capacity : ℕ) (s : List Hash) (h : Hash) : List Hash :=
  setAdd oom (evict capacity s) h

theorem boundedAdd_false : boundedAdd false capacity s h = TipsCache.fifoAdd s capacity h := rfl

omit [DecidableEq Hash] in
theorem mem_of_mem_evict (hx : x ∈ evict capacity s) : x ∈ s := by
  unfold evict at hx
  split at hx
  · exact List.mem_of_mem_tail hx
  · exact hx

omit [DecidableEq Hash] in
theorem nodup_evict (hs : s.Nodup) : (evict capacity s).Nodup := by
  unfold evict
  split
  · exact hs.tail
  · exact hs

omit [DecidableEq Hash] in
/-- Only the oldest hash of a full set goes. -/
theorem mem_evict_or (capacity : ℕ) (hx : x ∈ s) :
    x ∈ evict capacity s ∨ capacity ≤ s.length ∧ s.head? = some x := by
  unfold evict
  split
  · rename_i hfull
    cases s with
    | nil => simp at hx
    | cons y s =>
      rcases List.mem_cons.mp hx with rfl | hmem
      · exact .inr ⟨hfull, rfl⟩
      · exact .inl hmem
  · exact .inl hx

omit [DecidableEq Hash] in
/-- And it does go. -/
theorem head_not_mem_evict (hs : s.Nodup) (hfull : capacity ≤ s.length) (hx : s.head? = some x) :
    x ∉ evict capacity s := by
  cases s with
  | nil => simp at hx
  | cons y s =>
    obtain rfl : y = x := by simpa using hx
    rw [evict, if_pos hfull]
    exact (List.nodup_cons.mp hs).1

omit [DecidableEq Hash] in
theorem exists_head (hc : 1 ≤ capacity) (hfull : capacity ≤ s.length) : ∃ x ∈ s, s.head? = some x := by
  cases s with
  | nil => simp at hfull; omega
  | cons y s => exact ⟨y, by simp, rfl⟩

omit [DecidableEq Hash] in
theorem length_evict_lt (hc : 1 ≤ capacity) (hs : s.length ≤ capacity) :
    (evict capacity s).length < capacity := by
  unfold evict
  split
  · rw [List.length_tail]; omega
  · omega

@[simp] theorem mem_boundedAdd :
    x ∈ boundedAdd oom capacity s h ↔ x ∈ evict capacity s ∨ oom = false ∧ x = h := by
  cases oom <;> simp [boundedAdd, setAdd]

theorem nodup_boundedAdd (hs : s.Nodup) : (boundedAdd oom capacity s h).Nodup := by
  cases oom with
  | false => exact nodup_hashSetAdd (nodup_evict hs)
  | true => exact nodup_evict hs

theorem length_hashSetAdd_le : (hashSetAdd s h).length ≤ s.length + 1 := by
  unfold hashSetAdd
  split
  · omega
  · simp

/-- A bounded set stays bounded. -/
theorem length_boundedAdd_le (hc : 1 ≤ capacity) (hs : s.length ≤ capacity) :
    (boundedAdd oom capacity s h).length ≤ capacity := by
  have hlt := length_evict_lt hc hs
  cases oom with
  | false => exact length_hashSetAdd_le.trans hlt
  | true => exact hlt.le

theorem length_hashSetRemove_le : (hashSetRemove s h).length ≤ s.length := List.length_filter_le _ _

/-! ## Listing -/

/-- What loops of `hash243_stack_push` have come to: whether the last push
succeeded, the outcomes of the allocations left, and the stack. -/
structure Pushed (Hash : Type) where
  ok : Bool
  fails : List Bool
  stack : List Hash

/-- The loop over the entries of a set, which a failed push leaves. -/
def pushAll (p : Pushed Hash) : List Hash → Pushed Hash
  | [] => p
  | h :: hs =>
      if p.fails.headD false then ⟨false, p.fails.tail, p.stack⟩
      else pushAll ⟨true, p.fails.tail, h :: p.stack⟩ hs

omit [DecidableEq Hash] in
theorem pushAll_stack {p : Pushed Hash} (hok : (pushAll p s).ok = true) (hp : p.ok = true) :
    (pushAll p s).stack = s.reverse ++ p.stack := by
  induction s generalizing p with
  | nil => rfl
  | cons h s ih =>
    unfold pushAll at hok ⊢
    split at hok
    · contradiction
    · rename_i hf
      rw [if_neg hf, ih hok rfl, List.reverse_cons, List.append_assoc]
      rfl

omit [DecidableEq Hash] in
/-- The loop succeeds when no allocation fails. -/
theorem pushAll_ok : (pushAll ⟨true, [], stack⟩ s).ok = true := by
  induction s generalizing stack with
  | nil => rfl
  | cons h s ih => exact ih

/-- The stack lists two sets: each hash of them once, nothing else, and as many
as the size says. -/
structure Lists (a b : List Hash) (size : ℕ) (stack : List Hash) : Prop where
  nodup : stack.Nodup
  mem : ∀ x, x ∈ stack ↔ x ∈ a ∨ x ∈ b
  length : stack.length = size

end Entangled
