import Entangled.Merkle.Tree
import Entangled.Common.Ternary
/-!
# The sponge in the open

The prototype reads and writes the state of Curl itself: what it masks it adds to the state, trit by
trit, and absorbs. Of the transformation it needs no more than that it makes a state of a state.
-/

namespace Entangled

namespace Prototype

open Merkle Ternary

/-- The state of `Curl`. -/
@[ext]
structure CurlState where
  trits : List ℤ
  length_trits : trits.length = 729

/-- The transformation. -/
structure CurlP where
  transform : CurlState → CurlState
  trits_transform : ∀ s, Trits s.trits → Trits (transform s).trits

/-- The first trits of the state are replaced. -/
def CurlState.overwrite (s : CurlState) (chunk : List ℤ) : CurlState where
  trits := blit s.trits 0 (chunk.take 243)
  length_trits := by
    have hlen := s.length_trits
    have hchunk := List.length_take_le 243 chunk
    rw [length_blit (by omega), hlen]

namespace CurlP

variable (F : CurlP)

/-- `curl_absorb`. -/
def absorb (s : CurlState) (trits : List ℤ) : CurlState :=
  if _h : trits = [] then s
  else absorb (F.transform (s.overwrite trits)) (trits.drop 243)
termination_by trits.length
decreasing_by
  have hpos := List.length_pos_iff.mpr _h
  rw [List.length_drop]
  omega

/-- `curl_squeeze`. -/
def squeeze (s : CurlState) (length : ℕ) : List ℤ × CurlState :=
  if length = 0 then ([], s)
  else
    let r := squeeze (F.transform s) (length - 243)
    (s.trits.take (min length 243) ++ r.1, r.2)
termination_by length
decreasing_by omega

theorem length_squeeze (s : CurlState) (n : ℕ) : (F.squeeze s n).1.length = n := by
  induction n using Nat.strong_induction_on generalizing s with
  | _ n ih =>
    rw [squeeze]
    split_ifs with hn
    · exact hn.symm
    · have hlen := s.length_trits
      rw [List.length_append, List.length_take, ih _ (by omega)]
      omega

/-- `curl_reset`. -/
def reset : CurlState := ⟨List.replicate 729 0, List.length_replicate⟩

/-- The sponge the signatures and the tree are made with. -/
def curl : Curl CurlState where
  reset := reset
  absorb := F.absorb
  squeeze := F.squeeze
  length_squeeze := F.length_squeeze

/-- `mask`: what goes into `dest`, and the sponge. -/
def mask (message : List ℤ) (c : CurlState) : List ℤ × CurlState :=
  if _h : message = [] then ([], c)
  else
    let chunk := message.take 243
    let r := mask (message.drop 243) (F.absorb c chunk)
    (List.zipWith tritSum chunk c.trits ++ r.1, r.2)
termination_by message.length
decreasing_by
  have hpos := List.length_pos_iff.mpr _h
  rw [List.length_drop]
  omega

/-- `unmask`. -/
def unmask (cipher : List ℤ) (c : CurlState) : List ℤ × CurlState :=
  if _h : cipher = [] then ([], c)
  else
    let chunk := List.zipWith (fun x s => tritSum x (-s)) (cipher.take 243) c.trits
    let r := unmask (cipher.drop 243) (F.absorb c chunk)
    (chunk ++ r.1, r.2)
termination_by cipher.length
decreasing_by
  have hpos := List.length_pos_iff.mpr _h
  rw [List.length_drop]
  omega

end CurlP

/-! ## What is masked is unmasked -/

theorem isTrit_tritSum {a b : ℤ} (ha : IsTrit a) (hb : IsTrit b) : IsTrit (tritSum a b) := by
  rcases ha with rfl | rfl | rfl <;> rcases hb with rfl | rfl | rfl <;> decide

theorem tritSum_tritSum_neg {a b : ℤ} (ha : IsTrit a) (hb : IsTrit b) :
    tritSum (tritSum a b) (-b) = a := by
  rcases ha with rfl | rfl | rfl <;> rcases hb with rfl | rfl | rfl <;> decide

theorem trits_zipWith {f : ℤ → ℤ → ℤ} (hf : ∀ a b, IsTrit a → IsTrit b → IsTrit (f a b))
    {l s : List ℤ} (hl : Trits l) (hs : Trits s) : Trits (List.zipWith f l s) := by
  induction l generalizing s with
  | nil => exact trits_nil
  | cons a l ih =>
    cases s with
    | nil => exact trits_nil
    | cons b s =>
      obtain ⟨ha, hl⟩ := trits_cons.mp hl
      obtain ⟨hb, hs⟩ := trits_cons.mp hs
      exact trits_cons.mpr ⟨hf a b ha hb, ih hl hs⟩

/-- Taking the state away again. -/
theorem zipWith_zipWith_neg {l s : List ℤ} (hl : Trits l) (hs : Trits s)
    (hlen : l.length ≤ s.length) :
    List.zipWith (fun x s => tritSum x (-s)) (List.zipWith tritSum l s) s = l := by
  induction l generalizing s with
  | nil => rfl
  | cons a l ih =>
    cases s with
    | nil => exact absurd hlen (Nat.not_succ_le_zero _)
    | cons b s =>
      obtain ⟨ha, hl⟩ := trits_cons.mp hl
      obtain ⟨hb, hs⟩ := trits_cons.mp hs
      rw [List.zipWith_cons_cons, List.zipWith_cons_cons, tritSum_tritSum_neg ha hb,
        ih hl hs (Nat.le_of_succ_le_succ hlen)]

namespace CurlP

variable {F : CurlP} {c : CurlState} {l : List ℤ}

theorem trits_overwrite (hc : Trits c.trits) (hl : Trits l) : Trits (c.overwrite l).trits := by
  show Trits (blit _ _ _)
  rw [blit]
  exact trits_append.mpr ⟨trits_append.mpr ⟨hc.take _, hl.take _⟩, hc.drop _⟩

theorem trits_absorb (hc : Trits c.trits) (hl : Trits l) : Trits (F.absorb c l).trits := by
  induction hn : l.length using Nat.strong_induction_on generalizing l c with
  | _ n ih =>
    rw [absorb]
    split_ifs with hnil
    · exact hc
    · have hpos := List.length_pos_iff.mpr hnil
      exact ih _ (by rw [List.length_drop]; omega) (F.trits_transform _ (trits_overwrite hc hl))
        (hl.drop _) rfl

theorem trits_reset : Trits reset.trits := trits_replicate 729

theorem length_unmask (l : List ℤ) (c : CurlState) : (F.unmask l c).1.length = l.length := by
  induction hn : l.length using Nat.strong_induction_on generalizing l c with
  | _ n ih =>
    rw [unmask]
    split_ifs with hnil
    · rw [← hn, hnil]
    · have hpos := List.length_pos_iff.mpr hnil
      have hstate := c.length_trits
      have hrest := ih (l.drop 243).length (by rw [List.length_drop]; omega) (l.drop 243)
        (F.absorb c (List.zipWith (fun x s => tritSum x (-s)) (l.take 243) c.trits)) rfl
      rw [List.length_append, hrest, List.length_zipWith, List.length_take, List.length_drop]
      omega

theorem length_mask (l : List ℤ) (c : CurlState) : (F.mask l c).1.length = l.length := by
  induction hn : l.length using Nat.strong_induction_on generalizing l c with
  | _ n ih =>
    rw [mask]
    split_ifs with hnil
    · rw [← hn, hnil]
    · have hpos := List.length_pos_iff.mpr hnil
      have hstate := c.length_trits
      have hrest := ih (l.drop 243).length (by rw [List.length_drop]; omega) (l.drop 243)
        (F.absorb c (l.take 243)) rfl
      rw [List.length_append, hrest, List.length_zipWith, List.length_take, List.length_drop]
      omega

theorem trits_unmask (hl : Trits l) (hc : Trits c.trits) :
    Trits (F.unmask l c).1 ∧ Trits (F.unmask l c).2.trits := by
  induction hn : l.length using Nat.strong_induction_on generalizing l c with
  | _ n ih =>
    rw [unmask]
    split_ifs with hnil
    · exact ⟨trits_nil, hc⟩
    · have hpos := List.length_pos_iff.mpr hnil
      have hchunk : Trits (List.zipWith (fun x s => tritSum x (-s)) (l.take 243) c.trits) :=
        trits_zipWith (fun a b ha hb => isTrit_tritSum ha (isTrit_neg hb)) (hl.take _) hc
      obtain ⟨hrest, hstate⟩ := ih _ (by rw [List.length_drop]; omega) (hl.drop 243)
        (trits_absorb (F := F) hc hchunk) rfl
      exact ⟨trits_append.mpr ⟨hchunk, hrest⟩, hstate⟩

/-- **What is masked is unmasked**, and the sponges go on alike. -/
theorem unmask_mask (hl : Trits l) (hc : Trits c.trits) :
    F.unmask (F.mask l c).1 c = (l, (F.mask l c).2) := by
  induction hn : l.length using Nat.strong_induction_on generalizing l c with
  | _ n ih =>
    by_cases hnil : l = []
    · subst hnil
      rw [mask, dif_pos rfl, unmask, dif_pos rfl]
    · have hpos := List.length_pos_iff.mpr hnil
      have hstate := c.length_trits
      have hlen : (List.zipWith tritSum (l.take 243) c.trits).length = min l.length 243 := by
        rw [List.length_zipWith, List.length_take]
        omega
      have hrest := ih _ (by rw [List.length_drop]; omega) (hl.drop 243)
        (trits_absorb (F := F) hc (hl.take 243)) rfl
      rw [mask, dif_neg hnil]
      dsimp only
      have hsplit : (List.zipWith tritSum (l.take 243) c.trits ++
            (F.mask (l.drop 243) (F.absorb c (l.take 243))).1).take 243 =
            List.zipWith tritSum (l.take 243) c.trits ∧
          (List.zipWith tritSum (l.take 243) c.trits ++
            (F.mask (l.drop 243) (F.absorb c (l.take 243))).1).drop 243 =
            (F.mask (l.drop 243) (F.absorb c (l.take 243))).1 := by
        rcases Nat.lt_or_ge l.length 243 with hshort | hlong
        · have hdrop : l.drop 243 = [] := List.drop_eq_nil_of_le (by omega)
          rw [hdrop, mask, dif_pos rfl, List.append_nil]
          exact ⟨List.take_of_length_le (by omega), List.drop_eq_nil_of_le (by omega)⟩
        · exact ⟨List.take_left' (by omega), List.drop_left' (by omega)⟩
      have hne : List.zipWith tritSum (l.take 243) c.trits ++
          (F.mask (l.drop 243) (F.absorb c (l.take 243))).1 ≠ [] := by
        intro hempty
        have hzero := congrArg List.length hempty
        rw [List.length_append, List.length_nil] at hzero
        omega
      rw [unmask, dif_neg hne, hsplit.1, hsplit.2,
        zipWith_zipWith_neg (hl.take _) hc (by rw [List.length_take]; omega)]
      dsimp only
      rw [hrest, List.take_append_drop]

end CurlP

end Prototype

end Entangled
