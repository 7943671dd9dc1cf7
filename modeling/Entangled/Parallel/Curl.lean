import Entangled.Common.Assign
import Entangled.Parallel.Ptrit
import Entangled.Prototype.Mask
/-!
# Curl, one message and many

`curl_p.c` and `ptrit.c`. Both make a round of the state by one table over two of its trits, and the
places of these are a permutation of the state written down as a table of indices. The parallel one
has the table as a formula over bits, and it walks through the places from two ends; with the short
layout it has not even a second state to write to, but three buffers of half a state that it goes
around with.

In terms of `Assigned` every one of the boxes is the same run of assignments, under other addresses
(`Address`), so one lemma holds for all of them (`Box`).
-/

namespace Entangled

namespace Parallel

open Ternary Prototype Merkle

/-! ## One message -/

/-- `TRUTH_TABLE`. -/
def truthTable : List ℤ := [1, 0, -1, 2, 1, -1, 0, 2, -1, 1, 0]

/-- `CURL_INDEX`. -/
def curlIndex : List ℕ :=
  [0, 364, 728, 363, 727, 362, 726, 361, 725, 360, 724, 359, 723, 358, 722, 357, 721, 356, 720, 355,
    719, 354, 718, 353, 717, 352, 716, 351, 715, 350, 714, 349, 713, 348, 712, 347, 711, 346, 710,
    345, 709, 344, 708, 343, 707, 342, 706, 341, 705, 340, 704, 339, 703, 338, 702, 337, 701, 336,
    700, 335, 699, 334, 698, 333, 697, 332, 696, 331, 695, 330, 694, 329, 693, 328, 692, 327, 691,
    326, 690, 325, 689, 324, 688, 323, 687, 322, 686, 321, 685, 320, 684, 319, 683, 318, 682, 317,
    681, 316, 680, 315, 679, 314, 678, 313, 677, 312, 676, 311, 675, 310, 674, 309, 673, 308, 672,
    307, 671, 306, 670, 305, 669, 304, 668, 303, 667, 302, 666, 301, 665, 300, 664, 299, 663, 298,
    662, 297, 661, 296, 660, 295, 659, 294, 658, 293, 657, 292, 656, 291, 655, 290, 654, 289, 653,
    288, 652, 287, 651, 286, 650, 285, 649, 284, 648, 283, 647, 282, 646, 281, 645, 280, 644, 279,
    643, 278, 642, 277, 641, 276, 640, 275, 639, 274, 638, 273, 637, 272, 636, 271, 635, 270, 634,
    269, 633, 268, 632, 267, 631, 266, 630, 265, 629, 264, 628, 263, 627, 262, 626, 261, 625, 260,
    624, 259, 623, 258, 622, 257, 621, 256, 620, 255, 619, 254, 618, 253, 617, 252, 616, 251, 615,
    250, 614, 249, 613, 248, 612, 247, 611, 246, 610, 245, 609, 244, 608, 243, 607, 242, 606, 241,
    605, 240, 604, 239, 603, 238, 602, 237, 601, 236, 600, 235, 599, 234, 598, 233, 597, 232, 596,
    231, 595, 230, 594, 229, 593, 228, 592, 227, 591, 226, 590, 225, 589, 224, 588, 223, 587, 222,
    586, 221, 585, 220, 584, 219, 583, 218, 582, 217, 581, 216, 580, 215, 579, 214, 578, 213, 577,
    212, 576, 211, 575, 210, 574, 209, 573, 208, 572, 207, 571, 206, 570, 205, 569, 204, 568, 203,
    567, 202, 566, 201, 565, 200, 564, 199, 563, 198, 562, 197, 561, 196, 560, 195, 559, 194, 558,
    193, 557, 192, 556, 191, 555, 190, 554, 189, 553, 188, 552, 187, 551, 186, 550, 185, 549, 184,
    548, 183, 547, 182, 546, 181, 545, 180, 544, 179, 543, 178, 542, 177, 541, 176, 540, 175, 539,
    174, 538, 173, 537, 172, 536, 171, 535, 170, 534, 169, 533, 168, 532, 167, 531, 166, 530, 165,
    529, 164, 528, 163, 527, 162, 526, 161, 525, 160, 524, 159, 523, 158, 522, 157, 521, 156, 520,
    155, 519, 154, 518, 153, 517, 152, 516, 151, 515, 150, 514, 149, 513, 148, 512, 147, 511, 146,
    510, 145, 509, 144, 508, 143, 507, 142, 506, 141, 505, 140, 504, 139, 503, 138, 502, 137, 501,
    136, 500, 135, 499, 134, 498, 133, 497, 132, 496, 131, 495, 130, 494, 129, 493, 128, 492, 127,
    491, 126, 490, 125, 489, 124, 488, 123, 487, 122, 486, 121, 485, 120, 484, 119, 483, 118, 482,
    117, 481, 116, 480, 115, 479, 114, 478, 113, 477, 112, 476, 111, 475, 110, 474, 109, 473, 108,
    472, 107, 471, 106, 470, 105, 469, 104, 468, 103, 467, 102, 466, 101, 465, 100, 464, 99, 463,
    98, 462, 97, 461, 96, 460, 95, 459, 94, 458, 93, 457, 92, 456, 91, 455, 90, 454, 89, 453, 88,
    452, 87, 451, 86, 450, 85, 449, 84, 448, 83, 447, 82, 446, 81, 445, 80, 444, 79, 443, 78, 442,
    77, 441, 76, 440, 75, 439, 74, 438, 73, 437, 72, 436, 71, 435, 70, 434, 69, 433, 68, 432, 67,
    431, 66, 430, 65, 429, 64, 428, 63, 427, 62, 426, 61, 425, 60, 424, 59, 423, 58, 422, 57, 421,
    56, 420, 55, 419, 54, 418, 53, 417, 52, 416, 51, 415, 50, 414, 49, 413, 48, 412, 47, 411, 46,
    410, 45, 409, 44, 408, 43, 407, 42, 406, 41, 405, 40, 404, 39, 403, 38, 402, 37, 401, 36, 400,
    35, 399, 34, 398, 33, 397, 32, 396, 31, 395, 30, 394, 29, 393, 28, 392, 27, 391, 26, 390, 25,
    389, 24, 388, 23, 387, 22, 386, 21, 385, 20, 384, 19, 383, 18, 382, 17, 381, 16, 380, 15, 379,
    14, 378, 13, 377, 12, 376, 11, 375, 10, 374, 9, 373, 8, 372, 7, 371, 6, 370, 5, 369, 4, 368, 3,
    367, 2, 366, 1, 365, 0]

/-- What the table makes of two trits; the index is an `unsigned`. -/
def substitute (a b : ℤ) : ℤ := truthTable.getD ((a + 4 * b + 5) % 2 ^ 32).toNat 0

/-- `sbox`. -/
def sbox (s : List ℤ) : List ℤ :=
  (List.range 729).map fun i =>
    substitute (s.getD (curlIndex.getD i 0) 0) (s.getD (curlIndex.getD (i + 1) 0) 0)

/-- The loop of `transform`, with the rounds that are left: the two states in turn. -/
def transformLoop : ℕ → ℕ → List ℤ → List ℤ → List ℤ
  | 0, round, ctx, s => if round % 2 = 1 then s else ctx
  | left + 1, round, ctx, s =>
    if round % 2 = 1 then transformLoop left (round + 1) (sbox s) s
    else transformLoop left (round + 1) ctx (sbox ctx)

/-- `transform`; the second state is not set before the first round. -/
def transform (type : ℕ) (ctx : List ℤ) : List ℤ := transformLoop type 0 ctx []

/-! ## Many messages -/

section Machine

variable {n : ℕ}

/-- `XORANDN`. -/
def xorAndn (x y z : BitVec n) : BitVec n := x ^^^ (~~~y &&& z)

/-- `XORAND`. -/
def xorAnd (x y z : BitVec n) : BitVec n := x ^^^ (y &&& z)

/-- `XORORN`. -/
def xorOrn (x y z : BitVec n) : BitVec n := x ^^^ (~~~y ||| z)

/-- `pcurl_s2`: the cell `c` is written in two steps. -/
def pcurlS2 (C : Cvt) (m : ℕ → Ptrit n) (a b c : ℕ) : ℕ → Ptrit n :=
  let low := match C with
    | .orn => xorOrn (m a).high (m b).low (m a).low
    | .andn => xorAndn (m a).high (m b).low (m a).low
  let m := Function.update m c { m c with low := low }
  let high := match C with
    | .orn => xorOrn (m a).low (m b).high (m c).low
    | .andn => xorAnd (m a).low (m b).high (m c).low
  Function.update m c { m c with high := high }

/-- Which way a pointer goes. -/
inductive Way
  | up
  | down

/-- `p++` and `p--`. -/
def Way.move : Way → ℕ → ℕ
  | up, p => p + 1
  | down, p => p - 1

/-- The unwound loops: `pcurl_s2(y, x, w)` and `pcurl_s2(x, y, w)`, where each pointer is moved after
it has been the first or the last one. -/
def walk (C : Cvt) (wy wx ww : Way) : ℕ → ℕ → ℕ → ℕ → (ℕ → Ptrit n) → ℕ → Ptrit n
  | 0, _, _, _, m => m
  | rounds + 1, y, x, w, m =>
    let m := pcurlS2 C m y x w
    let y := wy.move y
    let w := ww.move w
    let m := pcurlS2 C m x y w
    walk C wy wx ww rounds y (wx.move x) (ww.move w) m

/-- `pcurl_sbox`. -/
def pcurlSbox (C : Cvt) (c s : ℕ) (m : ℕ → Ptrit n) : ℕ → Ptrit n :=
  let m := pcurlS2 C m s (s + 364) c
  walk C .down .down .up 364 (s + 364) (s + 728) (c + 1) m

/-- `pcurl_sbox_0`. -/
def pcurlSbox0 (C : Cvt) (a b c : ℕ) (m : ℕ → Ptrit n) : ℕ → Ptrit n :=
  let m := pcurlS2 C m (b + 364) (a + 364) c
  let m := walk C .down .down .up 182 (a + 364) (b + 363) (c + 1) m
  let m := walk C .down .down .down 182 (a + 182) (b + 181) (a + 364) m
  Function.update m a (m c)

/-- `pcurl_sbox_1`. -/
def pcurlSbox1 (C : Cvt) (a b c : ℕ) (m : ℕ → Ptrit n) : ℕ → Ptrit n :=
  let m := pcurlS2 C m a (c + 364) (b + 364)
  let m := walk C .down .up .down 182 (c + 364) (a + 1) (b + 363) m
  let m := walk C .down .up .down 182 (c + 182) (a + 183) (c + 364) m
  Function.update m c (m (b + 364))

/-- `pcurl_sbox_2`. -/
def pcurlSbox2 (C : Cvt) (a b c : ℕ) (m : ℕ → Ptrit n) : ℕ → Ptrit n :=
  let m := pcurlS2 C m c b a
  let m := walk C .up .up .up 182 b (c + 1) (a + 1) m
  let m := walk C .up .up .up 182 (b + 182) (c + 183) b m
  Function.update m (b + 364) (m a)

/-- `PCURL_STATE_DOUBLE` and `PCURL_STATE_SHORT`. -/
inductive Layout
  | double
  | short

/-- `memcpy`: `count` cells from `start` on. -/
def memcpy {α : Type} (dst : ℕ → α) (start count : ℕ) (src : ℕ → α) : ℕ → α :=
  fun k => if start ≤ k ∧ k < start + count then src (k - start) else dst k

/-- The loop of `pcurl_transform` with the double layout, and where the state is after it. -/
def doubleLoop (C : Cvt) : ℕ → ℕ → ℕ → (ℕ → Ptrit n) → ℕ × ℕ × (ℕ → Ptrit n)
  | 0, a, c, m => (a, c, m)
  | rounds + 1, a, c, m => doubleLoop C rounds c a (pcurlSbox C c a m)

/-- `pcurl_transform`. -/
def pcurlTransform (C : Cvt) (L : Layout) (roundCount : ℕ) (m : ℕ → Ptrit n) : ℕ → Ptrit n :=
  match L with
  | .short =>
    let a := 0
    let b := a + 365
    let c := b + 365
    let m := Function.update m (b + 364) (m a)
    (fun m => pcurlSbox2 C a b c (pcurlSbox1 C a b c (pcurlSbox0 C a b c m)))^[roundCount / 3] m
  | .double =>
    let r := doubleLoop C roundCount 0 729 m
    if roundCount % 2 = 1 then memcpy r.2.2 r.2.1 729 fun k => r.2.2 (r.1 + k) else r.2.2

/-- `pcurl_reset`. -/
def pcurlReset (C : Cvt) : ℕ → Ptrit n := fun _ =>
  match C with
  | .andn => ⟨BitVec.allOnes n, BitVec.allOnes n⟩
  | .orn => ⟨0#n, BitVec.allOnes n⟩

/-- The loop of `pcurl_absorb` over the full chunks: the state and what is left of the input. -/
def absorbChunks (T : (ℕ → Ptrit n) → ℕ → Ptrit n) :
    ℕ → (ℕ → Ptrit n) → (ℕ → Ptrit n) → (ℕ → Ptrit n) × (ℕ → Ptrit n)
  | 0, m, ptrits => (m, ptrits)
  | chunks + 1, m, ptrits =>
    absorbChunks T chunks (T (memcpy m 0 243 ptrits)) fun k => ptrits (243 + k)

/-- `pcurl_absorb`. -/
def pcurlAbsorb (T : (ℕ → Ptrit n) → ℕ → Ptrit n) (m ptrits : ℕ → Ptrit n) (length : ℕ) :
    ℕ → Ptrit n :=
  let r := absorbChunks T (length / 243) m ptrits
  if 0 < length % 243 then T (memcpy r.1 0 (length % 243) r.2) else r.1

/-- The loop of `pcurl_squeeze` over the full chunks, the first of which goes to `start`. -/
def squeezeChunks (T : (ℕ → Ptrit n) → ℕ → Ptrit n) :
    ℕ → ℕ → (ℕ → Ptrit n) → (ℕ → Ptrit n) → (ℕ → Ptrit n) × (ℕ → Ptrit n)
  | 0, _, m, ptrits => (m, ptrits)
  | chunks + 1, start, m, ptrits =>
    squeezeChunks T chunks (start + 243) (T m) (memcpy ptrits start 243 m)

/-- `pcurl_squeeze`: the output and the state. -/
def pcurlSqueeze (T : (ℕ → Ptrit n) → ℕ → Ptrit n) (m ptrits : ℕ → Ptrit n) (length : ℕ) :
    (ℕ → Ptrit n) × (ℕ → Ptrit n) :=
  let r := squeezeChunks T (length / 243) 0 m ptrits
  if 0 < length % 243 then (memcpy r.2 (243 * (length / 243)) (length % 243) r.1, T r.1)
  else (r.2, r.1)

end Machine

/-! ## Where the trits of a state are -/

/-- The trit that is used for step `t`; `729` stands for the first one. -/
def position (t : ℕ) : ℕ := if t % 2 = 0 then 729 - t / 2 else 364 - t / 2

theorem curlIndex_eq_map : curlIndex = (List.range 730).map fun t => position t % 729 := by
  decide +kernel

theorem curlIndex_eq (t : ℕ) (h : t < 730) : curlIndex.getD t 0 = position t % 729 := by
  rw [curlIndex_eq_map, List.getD_eq_getElem?_getD, List.getElem?_map, List.getElem?_range h]
  rfl

section Box

variable {α : Type} {f : α → α → α} {addr addr' : ℕ → ℕ} {m m' : ℕ → α} {s : ℕ → α}

/-- The next state. -/
def next (f : α → α → α) (s : ℕ → α) : ℕ → α :=
  fun t => f (s (position t % 729)) (s (position (t + 1) % 729))

/-- The memory holds a state, under these addresses. -/
def Holds (addr : ℕ → ℕ) (m s : ℕ → α) : Prop := ∀ j ≤ 729, m (addr j) = s (j % 729)

/-- The steps of a box: each trit goes to its new address. -/
abbrev Box (f : α → α → α) (addr addr' : ℕ → ℕ) (m : ℕ → α) (t : ℕ) (m' : ℕ → α) : Prop :=
  Assigned f addr' (fun u => addr (position u)) (fun u => addr (position (u + 1))) m t m'

/-- The addresses a box goes to are those it does not need any more. -/
structure Apart (addr addr' : ℕ → ℕ) : Prop where
  left : ∀ t < 729, ∀ u ≤ t, addr' u ≠ addr (position t)
  right : ∀ t < 729, ∀ u ≤ t, addr' u ≠ addr (position (t + 1))
  dst : ∀ t < 729, ∀ u < t, addr' u ≠ addr' t

theorem Apart.fresh (h : Apart addr addr') {t : ℕ} (ht : t < 729) :
    Fresh addr' (fun u => addr (position u)) (fun u => addr (position (u + 1))) t where
  left u hu := h.left t ht u hu.le
  right u hu := h.right t ht u hu.le
  dst := h.dst t ht

theorem position_le (t : ℕ) : position t ≤ 729 := by
  rw [position]
  split_ifs <;> omega

/-- **After all the steps** the next state is there. -/
theorem box_written (hs : Holds addr m s) (h : Box f addr addr' m 729 m') {t : ℕ} (ht : t < 729) :
    m' (addr' t) = next f s t := by
  rw [h.written t ht, hs _ (position_le t), hs _ (position_le (t + 1))]
  rfl

/-- With one more copy of the first trit, at its second address. -/
theorem Holds.box (hs : Holds addr m s) (h : Box f addr addr' m 729 m')
    (hlast : ∀ t < 729, addr' t ≠ addr' 729) :
    Holds addr' (Function.update m' (addr' 729) (m' (addr' 0))) (next f s) := by
  intro j hj
  rcases Nat.lt_or_ge j 729 with hlt | hge
  · rw [Function.update_of_ne (hlast j hlt), box_written hs h hlt, Nat.mod_eq_of_lt hlt]
  · obtain rfl : j = 729 := by omega
    rw [Function.update_self, box_written hs h (by decide)]

end Box

section Walk

variable {n : ℕ} {C : Cvt} {wy wx ww : Way} {addr addr' : ℕ → ℕ} {m m' : ℕ → Ptrit n}

/-- `pcurl_s2` as a function of two cells. -/
def s2 (C : Cvt) (a b : Ptrit n) : Ptrit n :=
  match C with
  | .orn => ⟨xorOrn a.high b.low a.low, xorOrn a.low b.high (xorOrn a.high b.low a.low)⟩
  | .andn => ⟨xorAndn a.high b.low a.low, xorAnd a.low b.high (xorAndn a.high b.low a.low)⟩

/-- A cell that is not read is written in one step. -/
theorem pcurlS2_eq {a b c : ℕ} (ha : c ≠ a) (hb : c ≠ b) :
    pcurlS2 C m a b c = Function.update m c (s2 C (m a) (m b)) := by
  unfold pcurlS2
  dsimp only
  rw [Function.update_of_ne ha.symm, Function.update_of_ne hb.symm, Function.update_self,
    Function.update_idem]
  cases C <;> rfl

theorem move_up (j p : ℕ) : Way.up.move^[j] p = p + j := by
  induction j generalizing p with
  | zero => rfl
  | succ j ih =>
    rw [Function.iterate_succ_apply, ih]
    show p + 1 + j = p + (j + 1)
    omega

theorem move_down (j p : ℕ) : Way.down.move^[j] p = p - j := by
  induction j generalizing p with
  | zero => rfl
  | succ j ih =>
    rw [Function.iterate_succ_apply, ih]
    show p - 1 - j = p - (j + 1)
    omega

/-- The pointers of a walk stand, round by round, where the steps from `t` on read and write. -/
structure Along (wy wx ww : Way) (addr addr' : ℕ → ℕ) (t rounds y x w : ℕ) : Prop where
  y : ∀ j ≤ rounds, wy.move^[j] y = addr (position (t + 2 * j))
  x : ∀ j < rounds, wx.move^[j] x = addr (position (t + 2 * j + 1))
  w : ∀ j < 2 * rounds, ww.move^[j] w = addr' (t + j)

/-- One call. -/
theorem Box.s2 (h : Box (s2 C) addr addr' m t m') (hapart : Apart addr addr') (ht : t < 729)
    {y x w : ℕ} (hy : y = addr (position t)) (hx : x = addr (position (t + 1))) (hw : w = addr' t) :
    Box (s2 C) addr addr' m (t + 1) (pcurlS2 C m' y x w) := by
  rw [hy, hx, hw, pcurlS2_eq (hapart.left t ht t le_rfl) (hapart.right t ht t le_rfl)]
  exact h.step (hapart.fresh ht)

/-- The first call. -/
theorem Box.first (hapart : Apart addr addr') {y x w : ℕ} (hy : y = addr (position 0))
    (hx : x = addr (position 1)) (hw : w = addr' 0) :
    Box (Parallel.s2 C) addr addr' m 1 (pcurlS2 C m y x w) :=
  Box.s2 Assigned.start hapart (by decide) hy hx hw

/-- **A walk** makes the steps it goes along. -/
theorem Box.walk {t rounds y x w : ℕ} (h : Box (Parallel.s2 C) addr addr' m t m')
    (hapart : Apart addr addr') (hend : t + 2 * rounds ≤ 729)
    (halong : Along wy wx ww addr addr' t rounds y x w) :
    Box (Parallel.s2 C) addr addr' m (t + 2 * rounds) (walk C wy wx ww rounds y x w m') := by
  induction rounds generalizing t y x w m' with
  | zero => exact h
  | succ rounds ih =>
    have hfirst := h.s2 hapart (by omega) (halong.y 0 (by omega)) (halong.x 0 (by omega))
      (halong.w 0 (by omega))
    have hsecond := hfirst.s2 hapart (by omega) (halong.x 0 (by omega)) (halong.y 1 (by omega))
      (halong.w 1 (by omega))
    rw [Parallel.walk, show t + 2 * (rounds + 1) = t + 1 + 1 + 2 * rounds by omega]
    refine ih hsecond (by omega) ⟨fun j hj => ?_, fun j hj => ?_, fun j hj => ?_⟩
    · have hy := halong.y (j + 1) (by omega)
      rwa [Function.iterate_succ_apply, show t + 2 * (j + 1) = t + 1 + 1 + 2 * j by omega] at hy
    · have hx := halong.x (j + 1) (by omega)
      rwa [Function.iterate_succ_apply, show t + 2 * (j + 1) = t + 1 + 1 + 2 * j by omega] at hx
    · have hw := halong.w (j + 1 + 1) (by omega)
      rwa [Function.iterate_succ_apply, Function.iterate_succ_apply,
        show t + (j + 1 + 1) = t + 1 + 1 + j by omega] at hw

/-! ## The boxes -/

/-- The first trits in the first buffer and the others in the second one, upwards. -/
def addr0 (j : ℕ) : ℕ := j

/-- The first trits in the third buffer, upwards, and the others in the first one, downwards. -/
def addr1 (j : ℕ) : ℕ := if j ≤ 364 then 730 + j else 729 - j

/-- The first trits in the second buffer and the others in the third one, downwards. -/
def addr2 (j : ℕ) : ℕ := if j ≤ 364 then 729 - j else 1459 - j

/-- One state behind another. -/
def addrFrom (start j : ℕ) : ℕ := start + j % 729

theorem apart_0_1 : Apart addr0 addr1 := by
  constructor <;> intro t ht u hu <;> simp only [addr0, addr1, position] <;> split_ifs <;> omega

theorem apart_1_2 : Apart addr1 addr2 := by
  constructor <;> intro t ht u hu <;> simp only [addr1, addr2, position] <;> split_ifs <;> omega

theorem apart_2_0 : Apart addr2 addr0 where
  left t ht u hu := by simp only [addr2, addr0, position]; split_ifs <;> omega
  right t ht u hu := by simp only [addr2, addr0, position]; split_ifs <;> omega
  dst t ht u hu := hu.ne

theorem apart_from {a c : ℕ} (hac : a + 729 ≤ c ∨ c + 729 ≤ a) : Apart (addrFrom a) (addrFrom c) := by
  constructor <;> intro t ht u hu <;> simp only [addrFrom] <;> omega

variable {s : ℕ → Ptrit n}

theorem holds_sbox0 (hs : Holds addr0 m s) :
    Holds addr1 (pcurlSbox0 C 0 365 730 m) (next (s2 C) s) := by
  have hlower : Along .down .down .up addr0 addr1 1 182 (0 + 364) (365 + 363) (730 + 1) := by
    constructor <;> intro j hj <;> simp only [move_down, move_up, addr0, addr1, position] <;>
      split_ifs <;> omega
  have hupper : Along .down .down .down addr0 addr1 365 182 (0 + 182) (365 + 181) (0 + 364) := by
    constructor <;> intro j hj <;> simp only [move_down, addr0, addr1, position] <;>
      split_ifs <;> omega
  have hlast : ∀ t < 729, addr1 t ≠ addr1 729 := by
    intro t ht
    simp only [addr1]
    split_ifs <;> omega
  have hfirst : Box (s2 C) addr0 addr1 m 1 (pcurlS2 C m (365 + 364) (0 + 364) 730) :=
    Box.first apart_0_1 rfl rfl rfl
  exact hs.box ((hfirst.walk apart_0_1 (by decide) hlower).walk apart_0_1 (by decide) hupper) hlast

theorem holds_sbox1 (hs : Holds addr1 m s) :
    Holds addr2 (pcurlSbox1 C 0 365 730 m) (next (s2 C) s) := by
  have hlower : Along .down .up .down addr1 addr2 1 182 (730 + 364) (0 + 1) (365 + 363) := by
    constructor <;> intro j hj <;> simp only [move_down, move_up, addr1, addr2, position] <;>
      split_ifs <;> omega
  have hupper : Along .down .up .down addr1 addr2 365 182 (730 + 182) (0 + 183) (730 + 364) := by
    constructor <;> intro j hj <;> simp only [move_down, move_up, addr1, addr2, position] <;>
      split_ifs <;> omega
  have hlast : ∀ t < 729, addr2 t ≠ addr2 729 := by
    intro t ht
    simp only [addr2]
    split_ifs <;> omega
  have hfirst : Box (s2 C) addr1 addr2 m 1 (pcurlS2 C m 0 (730 + 364) (365 + 364)) :=
    Box.first apart_1_2 rfl rfl rfl
  exact hs.box ((hfirst.walk apart_1_2 (by decide) hlower).walk apart_1_2 (by decide) hupper) hlast

theorem holds_sbox2 (hs : Holds addr2 m s) :
    Holds addr0 (pcurlSbox2 C 0 365 730 m) (next (s2 C) s) := by
  have hlower : Along .up .up .up addr2 addr0 1 182 365 (730 + 1) (0 + 1) := by
    constructor <;> intro j hj <;> simp only [move_up, addr2, addr0, position] <;>
      split_ifs <;> omega
  have hupper : Along .up .up .up addr2 addr0 365 182 (365 + 182) (730 + 183) 365 := by
    constructor <;> intro j hj <;> simp only [move_up, addr2, addr0, position] <;>
      split_ifs <;> omega
  have hfirst : Box (s2 C) addr2 addr0 m 1 (pcurlS2 C m 730 365 0) :=
    Box.first apart_2_0 rfl rfl rfl
  exact hs.box ((hfirst.walk apart_2_0 (by decide) hlower).walk apart_2_0 (by decide) hupper)
    fun t ht => ht.ne

/-- The long layout, from one state to the other. -/
theorem holds_sbox {a c : ℕ} (hac : a + 729 = c ∨ c + 729 = a)
    (hs : Holds (addrFrom a) m s) : Holds (addrFrom c) (pcurlSbox C c a m) (next (s2 C) s) := by
  have hapart : Apart (addrFrom a) (addrFrom c) := apart_from (by omega)
  have halong : Along .down .down .up (addrFrom a) (addrFrom c) 1 364 (a + 364) (a + 728)
      (c + 1) := by
    constructor <;> intro j hj <;> simp only [move_down, move_up, addrFrom, position] <;>
      try split_ifs
    all_goals omega
  have hfirst : Box (s2 C) (addrFrom a) (addrFrom c) m 1 (pcurlS2 C m a (a + 364) c) :=
    Box.first hapart rfl rfl rfl
  have hall := hfirst.walk hapart (by decide) halong
  intro j hj
  have hwritten := box_written hs hall (show j % 729 < 729 by omega)
  rwa [addrFrom, Nat.mod_mod] at hwritten

/-! ## The transformation -/

variable {L : Layout} {rounds : ℕ}

theorem doubleLoop_spec {a c : ℕ} (hac : a + 729 = c ∨ c + 729 = a)
    (hs : Holds (addrFrom a) m s) :
    (doubleLoop C rounds a c m).1 = (if rounds % 2 = 1 then c else a) ∧
      (doubleLoop C rounds a c m).2.1 = (if rounds % 2 = 1 then a else c) ∧
      Holds (addrFrom (if rounds % 2 = 1 then c else a)) (doubleLoop C rounds a c m).2.2
        ((next (s2 C))^[rounds] s) := by
  induction rounds generalizing a c m s with
  | zero => exact ⟨rfl, rfl, hs⟩
  | succ rounds ih =>
    obtain ⟨ha, hc, hholds⟩ := ih hac.symm (holds_sbox hac hs)
    rw [doubleLoop, Function.iterate_succ_apply]
    rcases Nat.mod_two_eq_zero_or_one rounds with hpar | hpar
    · rw [if_neg (by omega)] at ha hc hholds
      rw [if_pos (by omega), if_pos (by omega)]
      exact ⟨ha, hc, hholds⟩
    · rw [if_pos hpar] at ha hc hholds
      rw [if_neg (by omega), if_neg (by omega)]
      exact ⟨ha, hc, hholds⟩

/-- **With either layout the transformation is the rounds**, if their number is a multiple of
three. -/
theorem pcurlTransform_eq (h3 : 3 ∣ rounds) {k : ℕ} (hk : k < 729) :
    pcurlTransform C L rounds m k = (next (s2 C))^[rounds] m k := by
  cases L with
  | double =>
    have hs : Holds (addrFrom 0) m m := fun j _ => by rw [addrFrom, Nat.zero_add]
    obtain ⟨ha, hc, hholds⟩ := @doubleLoop_spec n C m m rounds 0 729 (Or.inl rfl) hs
    have hread := hholds k hk.le
    rw [addrFrom, Nat.mod_eq_of_lt hk] at hread
    unfold pcurlTransform
    dsimp only
    rw [ha, hc]
    split_ifs at hread ⊢ with hodd
    · rw [memcpy, if_pos ⟨Nat.zero_le k, by omega⟩, Nat.sub_zero, hread]
    · rw [Nat.zero_add] at hread
      exact hread
  | short =>
    obtain ⟨q, rfl⟩ := h3
    -- the last cell of the second buffer is the first one again
    have hs : Holds addr0 (Function.update m 729 (m 0)) m := by
      intro j hj
      rcases Nat.lt_or_ge j 729 with hlt | hge
      · rw [addr0, Function.update_of_ne hlt.ne, Nat.mod_eq_of_lt hlt]
      · obtain rfl : j = 729 := by omega
        rw [addr0, Function.update_self]
    have hloop : ∀ (q : ℕ) (m' s : ℕ → Ptrit n), Holds addr0 m' s → Holds addr0
        ((fun m => pcurlSbox2 C 0 365 730 (pcurlSbox1 C 0 365 730 (pcurlSbox0 C 0 365 730 m)))^[q]
          m') ((next (s2 C))^[3 * q] s) := by
      intro q
      induction q with
      | zero => exact fun m' s h => h
      | succ q ih =>
        intro m' s h
        rw [Function.iterate_succ_apply, show 3 * (q + 1) = 3 * q + 1 + 1 + 1 by ring,
          Function.iterate_succ_apply, Function.iterate_succ_apply, Function.iterate_succ_apply]
        exact ih _ _ (holds_sbox2 (holds_sbox1 (holds_sbox0 h)))
    have hread := hloop q _ m hs k hk.le
    rw [addr0, Nat.mod_eq_of_lt hk] at hread
    unfold pcurlTransform
    dsimp only
    rw [Nat.mul_div_cancel_left q (by decide)]
    exact hread

end Walk

/-! ## One message, as a function of the place -/

theorem isTrit_substitute {a b : ℤ} (ha : IsTrit a) (hb : IsTrit b) : IsTrit (substitute a b) := by
  rcases ha with rfl | rfl | rfl <;> rcases hb with rfl | rfl | rfl <;> decide

/-- The trits of a state by their places. -/
def placed (s : List ℤ) : ℕ → ℤ := fun k => s.getD k 0

theorem length_sbox (s : List ℤ) : (sbox s).length = 729 := by
  rw [sbox, List.length_map, List.length_range]

theorem placed_sbox (s : List ℤ) {k : ℕ} (hk : k < 729) :
    placed (sbox s) k = next substitute (placed s) k := by
  rw [placed, List.getD_eq_getElem _ _ (by rwa [length_sbox])]
  simp only [sbox, List.getElem_map, List.getElem_range]
  rw [curlIndex_eq k (by omega), curlIndex_eq (k + 1) (by omega)]
  rfl

theorem trits_sbox {s : List ℤ} (hs : Trits s) : Trits (sbox s) := by
  intro t ht
  obtain ⟨i, -, rfl⟩ := List.mem_map.mp ht
  exact isTrit_substitute (hs.getD _) (hs.getD _)

theorem transformLoop_eq (left round : ℕ) (ctx s : List ℤ) :
    transformLoop left round ctx s = sbox^[left] (if round % 2 = 1 then s else ctx) := by
  induction left generalizing round ctx s with
  | zero => rfl
  | succ left ih =>
    rw [transformLoop, Function.iterate_succ_apply]
    rcases Nat.mod_two_eq_zero_or_one round with hpar | hpar
    · rw [if_neg (by omega), if_neg (by omega), ih, if_pos (by omega)]
    · rw [if_pos hpar, if_pos hpar, ih, if_neg (by omega)]

theorem transform_eq (type : ℕ) (s : List ℤ) : transform type s = sbox^[type] s := by
  rw [transform, transformLoop_eq]
  rfl

theorem length_iterate_sbox (rounds : ℕ) {s : List ℤ} (hs : s.length = 729) :
    (sbox^[rounds] s).length = 729 := by
  induction rounds generalizing s with
  | zero => exact hs
  | succ rounds ih => exact ih (length_sbox s)

theorem trits_iterate_sbox (rounds : ℕ) {s : List ℤ} (hs : Trits s) : Trits (sbox^[rounds] s) := by
  induction rounds generalizing s with
  | zero => exact hs
  | succ rounds ih => exact ih (trits_sbox hs)

/-- `Curl`, of a type. -/
def curlP (type : ℕ) : CurlP where
  transform s := ⟨transform type s.trits, by
    rw [transform_eq]
    exact length_iterate_sbox type s.length_trits⟩
  trits_transform s hs := by
    show Trits (transform type s.trits)
    rw [transform_eq]
    exact trits_iterate_sbox type hs

/-! ## The lanes -/

section Lanes

variable {n i : ℕ} {C : Cvt} {L : Layout} {rounds : ℕ}

/-- **A bit of the formula is the table.** -/
theorem ptritGet_s2 {a b : Ptrit n} (hi : i < n) (ha : IsTrit (ptritGet C a i))
    (hb : IsTrit (ptritGet C b i)) :
    ptritGet C (s2 C a b) i = substitute (ptritGet C a i) (ptritGet C b i) := by
  revert ha hb
  cases C <;>
    simp only [ptritGet, s2, xorAndn, xorAnd, xorOrn, BitVec.getLsbD_xor, BitVec.getLsbD_and,
      BitVec.getLsbD_or, BitVec.getLsbD_not, decide_eq_true hi, Bool.true_and] <;>
    cases a.low.getLsbD i <;> cases a.high.getLsbD i <;>
    cases b.low.getLsbD i <;> cases b.high.getLsbD i <;> decide

/-- A lane holds a state. -/
def Lane (C : Cvt) (i : ℕ) (m : ℕ → Ptrit n) (s : CurlState) : Prop :=
  ∀ k < 729, ptritGet C (m k) i = s.trits.getD k 0

theorem lane_iterate {m : ℕ → Ptrit n} {s : List ℤ} (hi : i < n) (hs : Trits s)
    (hlane : ∀ k < 729, ptritGet C (m k) i = placed s k) (rounds : ℕ) :
    ∀ k < 729, ptritGet C ((next (s2 C))^[rounds] m k) i = placed (sbox^[rounds] s) k := by
  induction rounds generalizing m s with
  | zero => exact hlane
  | succ rounds ih =>
    rw [Function.iterate_succ_apply, Function.iterate_succ_apply]
    refine ih (trits_sbox hs) fun k hk => ?_
    have hleft := hlane (position k % 729) (Nat.mod_lt _ (by decide))
    have hright := hlane (position (k + 1) % 729) (Nat.mod_lt _ (by decide))
    rw [placed_sbox s hk, next, next, ptritGet_s2 hi, hleft, hright]
    · rw [hleft]
      exact hs.getD _
    · rw [hright]
      exact hs.getD _

/-- What a transformation of many messages is to do: in every lane that of one message. -/
def Parallels (C : Cvt) (n : ℕ) (T : (ℕ → Ptrit n) → ℕ → Ptrit n) (F : CurlP) : Prop :=
  ∀ i < n, ∀ m s, Trits s.trits → Lane C i m s → Lane C i (T m) (F.transform s)

/-- **The transformation is that of every lane.** -/
theorem parallels_pcurl (C : Cvt) (L : Layout) (n : ℕ) (h3 : 3 ∣ rounds) :
    Parallels C n (pcurlTransform C L rounds) (curlP rounds) := by
  intro i hi m s hs hlane k hk
  rw [pcurlTransform_eq h3 hk, lane_iterate hi hs hlane rounds k hk]
  show _ = (transform rounds s.trits).getD k 0
  rw [transform_eq]
  rfl

theorem lane_reset (hi : i < n) : Lane C i (pcurlReset C : ℕ → Ptrit n) CurlP.reset := by
  intro k hk
  have hzero : CurlP.reset.trits.getD k 0 = 0 := List.getD_replicate _ hk
  rw [hzero]
  cases C <;> simp [pcurlReset, ptritGet, cvtTepToTe1, hi]

end Lanes

end Parallel

end Entangled
