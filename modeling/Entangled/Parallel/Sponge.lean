import Entangled.Parallel.Curl
/-!
# Absorbing and squeezing in parallel

The parallel sponge goes over the full chunks and then over the rest, the other one over chunks until
nothing is left. In every lane they do the same (`lane_absorb`, `lane_squeeze`): what the other lanes
hold, trits or not, does not matter.
-/

namespace Entangled

namespace Parallel

open Ternary Prototype Merkle

variable {n i : ℕ} {C : Cvt} {T : (ℕ → Ptrit n) → ℕ → Ptrit n} {F : CurlP}
variable {m p dst : ℕ → Ptrit n} {s : CurlState} {l : List ℤ}

/-- A lane holds a list. -/
def LaneList (C : Cvt) (i : ℕ) (p : ℕ → Ptrit n) (l : List ℤ) : Prop :=
  ∀ k < l.length, ptritGet C (p k) i = l.getD k 0

theorem LaneList.drop (h : LaneList C i p l) (c : ℕ) :
    LaneList C i (fun k => p (c + k)) (l.drop c) := by
  intro k hk
  rw [List.length_drop] at hk
  rw [h (c + k) (by omega), List.getD_eq_getElem?_getD, List.getD_eq_getElem?_getD,
    List.getElem?_drop]

/-- Overwriting the first part of a state. -/
theorem Lane.overwrite (h : Lane C i m s) (hp : LaneList C i p l) {count : ℕ}
    (hcount : count = min 243 l.length) : Lane C i (memcpy m 0 count p) (s.overwrite l) := by
  intro k hk
  have hlen := s.length_trits
  have htake : (l.take 243).length = count := by rw [List.length_take, hcount]
  show _ = (blit s.trits 0 (l.take 243)).getD k 0
  rw [List.getD_eq_getElem?_getD, getElem?_blit (by omega), memcpy, htake]
  split_ifs with hin
  · rw [List.getElem?_take_of_lt (by omega), ← List.getD_eq_getElem?_getD]
    exact hp _ (by omega)
  · rw [← List.getD_eq_getElem?_getD]
    exact h k hk

theorem trits_overwrite_state (hs : Trits s.trits) (hl : Trits l) : Trits (s.overwrite l).trits :=
  CurlP.trits_overwrite hs hl

/-! ## Absorbing -/

/-- The first chunk, and then the others. -/
theorem pcurlAbsorb_step {length : ℕ} (h : 243 ≤ length) :
    pcurlAbsorb T m p length =
      pcurlAbsorb T (T (memcpy m 0 243 p)) (fun k => p (243 + k)) (length - 243) := by
  have hdiv : length / 243 = (length - 243) / 243 + 1 := by omega
  have hmod : length % 243 = (length - 243) % 243 := by omega
  rw [pcurlAbsorb, hdiv, hmod]
  rfl

/-- **Absorbing, lane by lane.** -/
theorem lane_absorb (hT : Parallels C n T F) (hi : i < n) (h : Lane C i m s) (hs : Trits s.trits)
    (hp : LaneList C i p l) (hl : Trits l) :
    Lane C i (pcurlAbsorb T m p l.length) (F.absorb s l) := by
  induction hn : l.length using Nat.strong_induction_on generalizing l m p s with
  | _ k ih =>
    subst hn
    rcases Nat.lt_or_ge l.length 243 with hshort | hlong
    · rw [pcurlAbsorb, Nat.div_eq_of_lt hshort, Nat.mod_eq_of_lt hshort]
      show Lane C i (if 0 < l.length then T (memcpy m 0 l.length p) else m) _
      rw [CurlP.absorb]
      split_ifs with hpos hnil hnil
      · rw [hnil] at hpos
        exact absurd hpos (Nat.lt_irrefl 0)
      · have hdrop : l.drop 243 = [] := List.drop_eq_nil_of_le hshort.le
        rw [hdrop, CurlP.absorb, dif_pos rfl]
        exact hT i hi _ _ (trits_overwrite_state hs hl) (h.overwrite hp (by omega))
      · exact h
      · exact absurd (List.length_pos_iff.mpr hnil) hpos
    · have hne : l ≠ [] := List.length_pos_iff.mp (by omega)
      have hdrop : (l.drop 243).length = l.length - 243 := List.length_drop
      have hover := trits_overwrite_state hs hl
      rw [pcurlAbsorb_step hlong, CurlP.absorb, dif_neg hne, ← hdrop]
      exact ih _ (by omega) (hT i hi _ _ hover (h.overwrite hp (by omega)))
        (F.trits_transform _ hover) (hp.drop 243) (hl.drop 243) rfl

/-! ## Squeezing -/

theorem squeeze_zero : F.squeeze s 0 = ([], s) := by rw [CurlP.squeeze, if_pos rfl]

theorem squeeze_of_pos {length : ℕ} (h : 0 < length) :
    F.squeeze s length = (s.trits.take (min length 243) ++ (F.squeeze (F.transform s) (length - 243)).1,
      (F.squeeze (F.transform s) (length - 243)).2) := by
  rw [CurlP.squeeze, if_neg h.ne']

theorem trits_squeeze (hs : Trits s.trits) (length : ℕ) : Trits (F.squeeze s length).1 := by
  induction length using Nat.strong_induction_on generalizing s with
  | _ length ih =>
    rcases Nat.eq_zero_or_pos length with rfl | hpos
    · rw [squeeze_zero]
      exact trits_nil
    · rw [squeeze_of_pos hpos]
      exact trits_append.mpr ⟨hs.take _, ih _ (by omega) (F.trits_transform s hs)⟩

/-- What a squeeze from `start` on gives: the lane is squeezed there, the rest stays. -/
def Squeezed (C : Cvt) (i start : ℕ) (out dst : ℕ → Ptrit n) (l : List ℤ) : Prop :=
  (∀ k < l.length, ptritGet C (out (start + k)) i = l.getD k 0) ∧ ∀ k < start, out k = dst k

theorem lane_squeezeChunks (hT : Parallels C n T F) (hi : i < n) (h : Lane C i m s)
    (hs : Trits s.trits) (chunks start : ℕ) {rest : ℕ} (hrest : rest < 243) :
    let r := squeezeChunks T chunks start m dst
    let out := if 0 < rest then memcpy r.2 (start + 243 * chunks) rest r.1 else r.2
    let state := if 0 < rest then T r.1 else r.1
    Squeezed C i start out dst (F.squeeze s (243 * chunks + rest)).1 ∧
      Lane C i state (F.squeeze s (243 * chunks + rest)).2 := by
  induction chunks generalizing start m s dst with
  | zero =>
    dsimp only
    rw [Nat.mul_zero, Nat.zero_add]
    show Squeezed C i start (if 0 < rest then memcpy dst start rest m else dst) dst _ ∧
      Lane C i (if 0 < rest then T m else m) _
    split_ifs with hpos
    · rw [squeeze_of_pos hpos, Nat.sub_eq_zero_of_le hrest.le, squeeze_zero, List.append_nil]
      have hlen := s.length_trits
      refine ⟨⟨fun k hk => ?_, fun k hk => ?_⟩, hT i hi m s hs h⟩
      · rw [List.length_take] at hk
        rw [memcpy, if_pos (by omega), Nat.add_sub_cancel_left, h k (by omega),
          List.getD_eq_getElem?_getD, List.getD_eq_getElem?_getD,
          List.getElem?_take_of_lt (by omega)]
      · rw [memcpy, if_neg (by omega)]
    · obtain rfl : rest = 0 := by omega
      rw [squeeze_zero]
      exact ⟨⟨fun k hk => absurd hk (Nat.not_lt_zero k), fun _ _ => rfl⟩, h⟩
  | succ chunks ih =>
    have hnext := @ih (T m) (memcpy dst start 243 m) (F.transform s) (hT i hi m s hs h)
      (F.trits_transform s hs) (start + 243)
    dsimp only at hnext ⊢
    rw [squeezeChunks, squeeze_of_pos (by omega),
      show 243 * (chunks + 1) + rest - 243 = 243 * chunks + rest by omega,
      show start + 243 * (chunks + 1) = start + 243 + 243 * chunks by omega]
    obtain ⟨⟨hout, hkept⟩, hstate⟩ := hnext
    refine ⟨⟨fun k hk => ?_, fun k hk => ?_⟩, hstate⟩
    · have hlen := s.length_trits
      have hfirst : (s.trits.take (min (243 * (chunks + 1) + rest) 243)).length = 243 := by
        rw [List.length_take]
        omega
      rw [List.length_append, hfirst] at hk
      rcases Nat.lt_or_ge k 243 with hlt | hge
      · -- the first chunk is kept by the later ones
        rw [List.getD_append _ _ _ _ (by omega), hkept (start + k) (by omega), memcpy,
          if_pos (by omega), Nat.add_sub_cancel_left, h k (by omega), List.getD_eq_getElem?_getD,
          List.getD_eq_getElem?_getD, List.getElem?_take_of_lt (by omega)]
      · rw [List.getD_append_right _ _ _ _ (by omega), hfirst, ← hout (k - 243) (by omega),
          show start + 243 + (k - 243) = start + k by omega]
    · rw [hkept k (by omega), memcpy, if_neg (by omega)]

/-- **Squeezing, lane by lane.** -/
theorem lane_squeeze (hT : Parallels C n T F) (hi : i < n) (h : Lane C i m s) (hs : Trits s.trits)
    (length : ℕ) :
    ptritsGetSlice C length (pcurlSqueeze T m dst length).1 i = (F.squeeze s length).1 ∧
      Lane C i (pcurlSqueeze T m dst length).2 (F.squeeze s length).2 := by
  have hall := @lane_squeezeChunks n i C T F m dst s hT hi h hs (length / 243) 0 (length % 243)
    (Nat.mod_lt _ (by decide))
  have hlength := F.length_squeeze s length
  dsimp only at hall
  rw [Nat.div_add_mod, Nat.zero_add] at hall
  obtain ⟨⟨hout, -⟩, hstate⟩ := hall
  unfold pcurlSqueeze
  dsimp only
  split_ifs at hout hstate ⊢
  · refine ⟨?_, hstate⟩
    have hslice := ptritsGetSlice_eq fun k hk => by simpa only [Nat.zero_add] using hout k hk
    rwa [hlength] at hslice
  · refine ⟨?_, hstate⟩
    have hslice := ptritsGetSlice_eq fun k hk => by simpa only [Nat.zero_add] using hout k hk
    rwa [hlength] at hslice

end Parallel

end Entangled
