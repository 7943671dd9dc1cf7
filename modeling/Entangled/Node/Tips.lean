import Entangled.Common.Runs
import Entangled.Node.Fifo
/-!
# Runs of the tips cache

A tip is added to the non-solid set, moved to the solid one, or removed from
both. `tips_cache_add` looks for the tip among the non-solid ones only, and only
after it has made room for it. So the two sets stay disjoint, and an addition
spares the other tips, as long as no solid tip is added again and no tip of a
full set but its oldest.
-/

namespace Entangled

open Runs

variable {Hash : Type} [DecidableEq Hash]

namespace TipsCache

variable {c : TipsCache Hash} {tip t : Hash} {oom : Bool} {fails : List Bool}

/-- `tips_cache_init`. -/
def init (capacity : ℕ) : TipsCache Hash := ⟨[], [], capacity⟩

/-- The calls that change the cache, with whether the `malloc` of an entry fails. -/
inductive Call (Hash : Type)
  | add (tip : Hash) (oom : Bool)
  | remove (tip : Hash)
  | setSolid (tip : Hash) (oom : Bool)

/-- What a call makes of the cache. -/
def exec (c : TipsCache Hash) : Call Hash → TipsCache Hash
  | .add tip oom => { c with tips := boundedAdd oom c.capacity c.tips tip }
  | .remove tip => c.remove tip
  | .setSolid tip oom =>
      if tip ∈ c.tips then
        { c with
          tips := hashSetRemove c.tips tip
          solidTips := boundedAdd oom c.capacity c.solidTips tip }
      else c

/-- `tips_cache_size`. -/
def size (c : TipsCache Hash) : ℕ := c.tips.length + c.solidTips.length

/-- `tips_cache_get_tips`. -/
def getTips (c : TipsCache Hash) (fails : List Bool) (tips : List Hash) : Pushed Hash :=
  let p := pushAll ⟨true, fails, tips⟩ c.tips
  if p.ok then pushAll p c.solidTips else p

omit [DecidableEq Hash] in
theorem getTips_stack (hok : (c.getTips fails []).ok = true) :
    (c.getTips fails []).stack = c.solidTips.reverse ++ c.tips.reverse := by
  unfold getTips at hok ⊢
  dsimp only at hok ⊢
  split at hok
  · rename_i hp
    rw [if_pos hp, pushAll_stack hok hp, pushAll_stack hp rfl, List.append_nil]
  · contradiction

/-- What is asked of the cache in every state. -/
structure Sound (c : TipsCache Hash) : Prop where
  disjoint : ∀ t ∈ c.tips, t ∉ c.solidTips
  tips_le : c.tips.length ≤ c.capacity
  solidTips_le : c.solidTips.length ≤ c.capacity
  listed : ∀ fails, (c.getTips fails []).ok = true →
    Lists c.tips c.solidTips c.size (c.getTips fails []).stack

/-- What is asked of a call: a tip that is there already is added at no other's cost. -/
def Spares (c : TipsCache Hash) : Call Hash → Prop
  | .add tip oom => tip ∈ c.tips ∨ tip ∈ c.solidTips → ∀ t, t ≠ tip →
      (t ∈ c.tips → t ∈ (c.exec (.add tip oom)).tips) ∧
      (t ∈ c.solidTips → t ∈ (c.exec (.add tip oom)).solidTips)
  | _ => True

/-- When a call goes well: a solid tip is not added, unless the addition comes to
nothing, and of a full set only the oldest tip is added again. -/
def Timely (c : TipsCache Hash) : Call Hash → Prop
  | .add tip oom =>
      (tip ∈ c.solidTips → oom = true ∧ c.tips.length < c.capacity) ∧
      (tip ∈ c.tips → c.capacity ≤ c.tips.length → c.tips.head? = some tip)
  | _ => True

/-- The invariant of the runs that go well. -/
structure Inv (c : TipsCache Hash) : Prop where
  capacity : 1 ≤ c.capacity
  tips : c.tips.Nodup
  solidTips : c.solidTips.Nodup
  disjoint : ∀ t ∈ c.tips, t ∉ c.solidTips
  tips_le : c.tips.length ≤ c.capacity
  solidTips_le : c.solidTips.length ≤ c.capacity

omit [DecidableEq Hash] in
theorem inv_init {capacity : ℕ} (hc : 1 ≤ capacity) : (init capacity : TipsCache Hash).Inv :=
  ⟨hc, List.nodup_nil, List.nodup_nil, by simp [init], by simp [init], by simp [init]⟩

omit [DecidableEq Hash] in
theorem Inv.sound (h : c.Inv) : c.Sound where
  disjoint := h.disjoint
  tips_le := h.tips_le
  solidTips_le := h.solidTips_le
  listed fails hok := by
    rw [getTips_stack hok]
    constructor
    · refine List.nodup_append.mpr
        ⟨List.nodup_reverse.mpr h.solidTips, List.nodup_reverse.mpr h.tips, ?_⟩
      intro a ha b hb hab
      rw [List.mem_reverse] at ha hb
      exact h.disjoint b hb (hab ▸ ha)
    · intro t
      simp [or_comm]
    · simp [size, Nat.add_comm]

theorem Inv.remove (h : c.Inv) : (c.exec (.remove tip)).Inv where
  capacity := h.capacity
  tips := nodup_hashSetRemove h.tips
  solidTips := nodup_hashSetRemove h.solidTips
  disjoint t ht hs := h.disjoint t (mem_hashSetRemove.mp ht).1 (mem_hashSetRemove.mp hs).1
  tips_le := length_hashSetRemove_le.trans h.tips_le
  solidTips_le := length_hashSetRemove_le.trans h.solidTips_le

theorem Inv.setSolid (h : c.Inv) : (c.exec (.setSolid tip oom)).Inv := by
  rw [exec]
  split
  · refine ⟨h.capacity, nodup_hashSetRemove h.tips, nodup_boundedAdd h.solidTips, ?_,
      length_hashSetRemove_le.trans h.tips_le, length_boundedAdd_le h.capacity h.solidTips_le⟩
    intro t ht hs
    obtain ⟨hmem, hne⟩ := mem_hashSetRemove.mp ht
    rcases mem_boundedAdd.mp hs with hold | ⟨-, heq⟩
    · exact h.disjoint t hmem (mem_of_mem_evict hold)
    · exact hne heq
  · exact h

/-- A timely addition keeps the invariant. -/
theorem Inv.add (h : c.Inv) (ht : c.Timely (.add tip oom)) : (c.exec (.add tip oom)).Inv := by
  refine ⟨h.capacity, nodup_boundedAdd h.tips, h.solidTips, ?_,
    length_boundedAdd_le h.capacity h.tips_le, h.solidTips_le⟩
  intro t hmem hs
  rcases mem_boundedAdd.mp hmem with hold | ⟨hoom, rfl⟩
  · exact h.disjoint t (mem_of_mem_evict hold) hs
  · rw [(ht.1 hs).1] at hoom
    contradiction

theorem Inv.exec (h : c.Inv) (call : Call Hash) (ht : c.Timely call) : (c.exec call).Inv := by
  cases call with
  | add tip oom => exact h.add ht
  | remove tip => exact h.remove
  | setSolid tip oom => exact h.setSolid

/-- A timely addition of a tip that is there spares the others. -/
theorem Timely.spares (ht : c.Timely (.add tip oom)) : c.Spares (.add tip oom) := by
  intro hthere t hne
  refine ⟨fun hmem => mem_boundedAdd.mpr ?_, fun hs => hs⟩
  rcases mem_evict_or _ hmem with hin | ⟨hfull, hhead⟩
  · exact .inl hin
  · -- the oldest tip of a full set goes, and it is not another one
    rcases hthere with htips | hsolid
    · rw [ht.2 htips hfull] at hhead
      exact absurd (Option.some.inj hhead).symm hne
    · exact absurd hfull (not_le.mpr (ht.1 hsolid).2)

/-- And one that spares them and leaves the cache sound is timely. -/
theorem Inv.timely (h : c.Inv) (hk : c.Spares (.add tip oom))
    (hs : (c.exec (.add tip oom)).Sound) : c.Timely (.add tip oom) := by
  -- the oldest tip of a full set can only be the one that is added
  have hhead : tip ∈ c.tips ∨ tip ∈ c.solidTips → c.capacity ≤ c.tips.length →
      c.tips.head? = some tip := by
    intro hthere hfull
    obtain ⟨x, hx, hhead⟩ := exists_head h.capacity hfull
    rcases eq_or_ne x tip with rfl | hne
    · exact hhead
    · rcases mem_boundedAdd.mp ((hk hthere x hne).1 hx) with hin | ⟨-, heq⟩
      · exact absurd hin (head_not_mem_evict h.tips hfull hhead)
      · exact absurd heq hne
  refine ⟨fun hsolid => ⟨?_, ?_⟩, fun htips hfull => hhead (.inl htips) hfull⟩
  · cases oom with
    | true => rfl
    | false => exact absurd hsolid (hs.disjoint tip (mem_boundedAdd.mpr (.inr ⟨rfl, rfl⟩)))
  · by_contra hfull
    have hfirst := hhead (.inr hsolid) (not_lt.mp hfull)
    exact h.disjoint tip (List.mem_of_mem_head? hfirst) hsolid

theorem Inv.kept_iff (h : c.Inv) (call : Call Hash) :
    c.Spares call ∧ (c.exec call).Sound ↔ c.Timely call := by
  cases call with
  | add tip oom =>
    exact ⟨fun ⟨hk, hs⟩ => h.timely hk hs, fun ht => ⟨ht.spares, (h.add ht).sound⟩⟩
  | remove tip => exact ⟨fun _ => trivial, fun _ => ⟨trivial, h.remove.sound⟩⟩
  | setSolid tip oom => exact ⟨fun _ => trivial, fun _ => ⟨trivial, h.setSolid.sound⟩⟩

/-- **When the tips cache is sound.** Along every run from an empty cache: in
every state the two sets are disjoint and bounded and a listing has every tip
once, and no addition of a tip that is there costs another one, if and only if
every addition of the run is timely. -/
theorem tips_cache_iff (capacity : ℕ) (hc : 1 ≤ capacity) (calls : List (Call Hash)) :
    Upheld exec Sound Spares (init capacity) calls ↔ Meets exec Timely (init capacity) calls :=
  upheld_iff_meets (fun _ => Inv.sound) (fun _ call h => h.kept_iff call)
    (fun _ call h => h.exec call) (inv_init hc)

/-- Three tips go through a cache of two, one of them made solid and added
again only after it was dropped. -/
theorem tips_cache_iff_three :
    Upheld exec Sound Spares (init 2 : TipsCache ℕ)
      [.add 1 false, .add 2 false, .setSolid 1 false, .add 3 false, .remove 1, .add 1 false] :=
  (tips_cache_iff 2 (by decide) _).mpr (by simp [Meets, exec, init, Timely, boundedAdd, setAdd,
    evict, hashSetAdd, TipsCache.remove, hashSetRemove])

/-- **A tip that is there is added again.** A solid one is then in both sets; one
of a full set costs the oldest tip its place. -/
theorem tip_added_again :
    ¬ Upheld exec Sound Spares (init 5 : TipsCache ℕ)
        [.add 1 false, .setSolid 1 false, .add 1 false] ∧
      ¬ Upheld exec Sound Spares (init 2 : TipsCache ℕ)
        [.add 1 false, .add 2 false, .add 2 false] := by
  constructor
  · intro ⟨_, _, _, _, _, _, hsound⟩
    exact hsound.disjoint 1 (by decide) (by decide)
  · intro ⟨_, _, _, _, _, hspares, _⟩
    exact absurd ((hspares (.inl (by decide)) 1 (by decide)).1 (by decide)) (by decide)

end TipsCache

end Entangled
