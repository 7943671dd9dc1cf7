import Entangled.Common.Blocks
import Entangled.Trinary.Regroup
/-!
# Flex trits as trytes

`flex_trits_to_trytes` and `flex_trits_from_trytes`. Four and five trits to a byte go through the
staging buffer, which both loops drain: they end when nothing is left to read and nothing is staged.
What they write are then the trytes of the trits, and the flex trits of the trytes, unless an index
of the loop, an `int`, overflows on the way.
-/

namespace Entangled

namespace Trinary

open Ternary

/-! ## The two directions -/

/-- A round of `flex_trits_to_trytes`. -/
def toTrytesRound (E : Encoding) (flexTrits : List FlexTrit) (j : ℕ) (s : Staging)
    (trytes : List Int8) : Option (Staging × List Int8) :=
  let refilled :=
    if s.offset < 3 then (intSucc s.i).map fun i => { stage E flexTrits s with i := i }
    else some s
  refilled.map fun s =>
    let tritsForTryte := min 3 s.offset
    ({ s with trits := shiftOut s.trits 3, offset := s.offset - tritsForTryte },
      blit trytes j (tritsToTrytes (s.trits.take tritsForTryte)))

/-- The loop of `flex_trits_to_trytes`, for so many rounds. -/
def toTrytesLoop (E : Encoding) (flexTrits : List FlexTrit) :
    ℕ → ℕ → Staging → List Int8 → Option (List Int8)
  | fuel, j, s, trytes =>
    if s.counter = 0 ∧ s.offset = 0 then some trytes
    else
      match fuel with
      | 0 => none
      | fuel + 1 =>
        (toTrytesRound E flexTrits j s trytes).bind fun p =>
          (intSucc j).bind fun j => toTrytesLoop E flexTrits fuel j p.1 p.2

/-- Three trits to a byte: the last tryte is written first, with the trits asked for, then the
whole ones are copied. -/
def copyTrytes (trytes : List Int8) (flexTrits : List FlexTrit) (numTrits : ℕ) : List Int8 :=
  let residual := numTrits % 3
  let numBytes := Encoding.three.numFlexTritsForTrits numTrits
  if residual ≠ 0 then
    let numBytes := numBytes - 1
    let trits := trytesToTrits [flexTrits.getD numBytes 0]
    blit (blit trytes numBytes (tritsToTrytes (trits.take residual))) 0 (flexTrits.take numBytes)
  else blit trytes 0 (flexTrits.take numBytes)

/-- `flex_trits_to_trytes`: the trytes and the number of trits. -/
def flexTritsToTrytes (E : Encoding) (trytes : List Int8) (toLen : ℕ) (flexTrits : List FlexTrit)
    (len numTrits : ℕ) : Option (List Int8 × ℕ) :=
  if len < numTrits ∨ toLen * 3 < numTrits then some (trytes, 0)
  else
    let trytes := memset trytes 57 toLen
    let trytes := match E with
      | .one => some (blit trytes 0 (tritsToTrytes ((flexTrits.take numTrits).map Int8.toInt)))
      | .three => some (copyTrytes trytes flexTrits numTrits)
      | _ => toTrytesLoop E flexTrits numTrits 0 ⟨List.replicate 8 0, 0, numTrits, 0⟩ trytes
    trytes.map fun trytes => (trytes, numTrits)

/-- The next tryte unpacked behind what is staged; `counter` is that of the trytes. -/
def stageTryte (trytes : List Int8) (s : Staging) : Staging :=
  { s with
    trits := blit s.trits s.offset (trytesToTrits [trytes.getD s.i 0])
    offset := s.offset + 3
    counter := s.counter - 1 }

/-- A round of `flex_trits_from_trytes`. -/
def fromTrytesRound (E : Encoding) (trytes : List Int8) (j : ℕ) (s : Staging)
    (dst : List FlexTrit) : Option (Staging × List FlexTrit) :=
  let refilled :=
    if s.counter ≠ 0 then
      let s := stageTryte trytes s
      if s.offset < E.numTritsPerFlexTrit ∧ s.counter ≠ 0 then
        (intSucc s.i).map fun i => stageTryte trytes { s with i := i }
      else some s
    else some s
  refilled.bind fun s => (intSucc s.i).map fun i =>
    let numTrits := min E.numTritsPerFlexTrit s.offset
    ({ s with trits := shiftOut s.trits numTrits, offset := s.offset - numTrits, i := i },
      dst.take j ++ (flexTritsFromTrits E (dst.drop j) numTrits s.trits numTrits numTrits).1)

/-- The loop of `flex_trits_from_trytes`, for so many rounds. -/
def fromTrytesLoop (E : Encoding) (trytes : List Int8) :
    ℕ → ℕ → Staging → List FlexTrit → Option (List FlexTrit)
  | fuel, j, s, dst =>
    if s.counter = 0 ∧ s.offset = 0 then some dst
    else
      match fuel with
      | 0 => none
      | fuel + 1 =>
        (fromTrytesRound E trytes j s dst).bind fun p =>
          (intSucc j).bind fun j => fromTrytesLoop E trytes fuel j p.1 p.2

/-- `flex_trits_from_trytes`: the flex trits and the number of trytes. -/
def flexTritsFromTrytes (E : Encoding) (dst : List FlexTrit) (toLen : ℕ) (trytes : List Int8)
    (len numTrytes : ℕ) : Option (List FlexTrit × ℕ) :=
  if len < numTrytes ∨ toLen < numTrytes * 3 then some (dst, 0)
  else
    let dst := memset dst E.nullValue (E.numFlexTritsForTrits toLen)
    let dst := match E with
      | .one => some (blit dst 0 ((trytesToTrits (trytes.take numTrytes)).map Int8.ofInt))
      | .three => some (blit dst 0 (trytes.take numTrytes))
      | _ => fromTrytesLoop E trytes numTrytes 0 ⟨List.replicate 8 0, 0, numTrytes, 0⟩ dst
    dst.map fun dst => (dst, numTrytes)

variable {E : Encoding} {ts : List ℤ} {src dst out : List FlexTrit} {trytes : List Int8}
variable {s s' : Staging} {i j k m n p q : ℕ}

/-! ## What is staged -/

/-- The flex trits that pass through the buffer to trytes. -/
def Encoding.Shifted (E : Encoding) : Prop := E = .four ∨ E = .five

instance (E : Encoding) : Decidable E.Shifted := inferInstanceAs (Decidable (_ ∨ _))

theorem Shifted.width (hE : E.Shifted) : 4 ≤ E.numTritsPerFlexTrit ∧ E.numTritsPerFlexTrit ≤ 5 := by
  rcases hE with rfl | rfl <;> decide

/-- The buffer holds the trits from `p` up to `q`. -/
structure Queued (ts : List ℤ) (p q : ℕ) (s : Staging) : Prop where
  length : s.trits.length = 8
  offset : p + s.offset = q
  staged : s.trits.take s.offset = (ts.drop p).take s.offset

/-- `k` trits more, written behind what is staged. -/
theorem Queued.push (H : Queued ts p q s) (hlen : s'.trits.length = 8)
    (hoffset : s'.offset = s.offset + k) (hfront : s'.trits.take s.offset = s.trits.take s.offset)
    (hnew : (s'.trits.drop s.offset).take k = (ts.drop q).take k) : Queued ts p (q + k) s' := by
  have hq := H.offset
  refine ⟨hlen, by omega, ?_⟩
  rw [hoffset, List.take_add, List.take_add, hfront, H.staged, hnew, List.drop_drop, hq]

/-- `k` trits less, or all of them. -/
theorem Queued.shift (H : Queued ts p q s) (hn : n ≤ 8) (hk : k = min n s.offset)
    (htrits : s'.trits = shiftOut s.trits n) (hoffset : s'.offset = s.offset - k)
    (hroom : s.offset ≤ 8) : Queued ts (p + k) q s' := by
  have hlength := H.length
  have hq := H.offset
  refine ⟨?_, by omega, ?_⟩
  · rw [htrits, length_shiftOut (by omega), hlength]
  · rw [htrits, hoffset]
    rcases Nat.le_total n s.offset with hle | hle
    · obtain rfl : k = n := by omega
      exact take_shiftOut_staged H.staged hle (by omega)
    · -- nothing stays behind
      have hzero : s.offset - k = 0 := by omega
      rw [hzero, List.take_zero, List.take_zero]

/-- The first `k` of them. -/
theorem Queued.front (H : Queued ts p q s) (hk : k ≤ s.offset) :
    s.trits.take k = (ts.drop p).take k := by
  have hstaged := congrArg (List.take k) H.staged
  rwa [List.take_take, List.take_take, Nat.min_eq_left hk] at hstaged

/-- The flex trits spell the trits; behind the last trit a byte may hold any others. -/
def Spells (E : Encoding) (src : List FlexTrit) (ts : List ℤ) : Prop :=
  ∀ c, E.numTritsPerFlexTrit * c < ts.length → c < src.length ∧
    (unpackByte E (src.getD c 0)).take (ts.length - E.numTritsPerFlexTrit * c) =
      (ts.drop (E.numTritsPerFlexTrit * c)).take E.numTritsPerFlexTrit

/-- A flex trit is staged, or none when all are. -/
theorem Queued.stage (H : Queued ts p (min ts.length (E.numTritsPerFlexTrit * s.i)) s)
    (hcounter : s.counter = ts.length - E.numTritsPerFlexTrit * s.i) (hsrc : Spells E src ts)
    (hroom : s.offset + E.numTritsPerFlexTrit ≤ 8) :
    Queued ts p (min ts.length (E.numTritsPerFlexTrit * (s.i + 1))) (stage E src s) := by
  have hlength := H.length
  have hmul : E.numTritsPerFlexTrit * (s.i + 1) =
      E.numTritsPerFlexTrit * s.i + E.numTritsPerFlexTrit := Nat.mul_succ _ _
  obtain ⟨v, hv⟩ : ∃ v, v = min E.numTritsPerFlexTrit s.counter := ⟨_, rfl⟩
  have hnext : min ts.length (E.numTritsPerFlexTrit * (s.i + 1)) =
      min ts.length (E.numTritsPerFlexTrit * s.i) + v := by omega
  have hfront : (s.trits.take s.offset).length = s.offset := by
    rw [List.length_take]
    omega
  have htrits : (Trinary.stage E src s).trits = s.trits.take s.offset ++
      (flexTritsToTrits E (s.trits.drop s.offset) v (src.drop s.i) v v).1 := by
    rw [hv]
    rfl
  rw [hnext]
  rcases Nat.eq_zero_or_pos v with h0 | hpos
  · -- the conversion of no trits leaves the buffer alone
    have hsame : (Trinary.stage E src s).trits = s.trits := by
      rw [htrits, h0, flexTritsToTrits, if_pos (Or.inl rfl), List.take_append_drop]
    refine H.push (by rw [hsame, hlength]) (by rw [hv]; rfl) (by rw [hsame]) ?_
    rw [h0, List.take_zero, List.take_zero]
  · have hlt : E.numTritsPerFlexTrit * s.i < ts.length := by omega
    obtain ⟨hcell, hspelled⟩ := hsrc s.i hlt
    have hne : src.drop s.i ≠ [] :=
      List.ne_nil_of_length_pos (by rw [List.length_drop]; omega)
    have hbyte : (src.drop s.i).getD 0 0 = src.getD s.i 0 := by
      rw [List.getD_eq_getElem?_getD, List.getElem?_drop, Nat.add_zero,
        ← List.getD_eq_getElem?_getD]
    obtain ⟨hlen, htake⟩ := flexTritsToTrits_head (E := E) (s.trits.drop s.offset) hne
      (m := v) (by omega) (by omega) (by rw [List.length_drop]; omega)
    have hread := congrArg (List.take v) hspelled
    rw [List.take_take, List.take_take, Nat.min_eq_left (by omega),
      Nat.min_eq_left (by omega)] at hread
    rw [List.length_drop] at hlen
    refine H.push ?_ (by rw [hv]; rfl) ?_ ?_
    · rw [htrits, List.length_append, hfront, hlen]
      omega
    · rw [htrits, List.take_append_of_le_length hfront.ge, List.take_take, Nat.min_self]
    · rw [htrits, List.drop_left' hfront, htake, hbyte, hread,
        Nat.min_eq_right (show E.numTritsPerFlexTrit * s.i ≤ ts.length by omega)]

/-! ## From flex trits to trytes -/

/-- The trytes of so many trits. -/
@[simp] theorem length_tritsToTrytes (ts : List ℤ) :
    (tritsToTrytes ts).length = (ts.length + 2) / 3 := by
  rw [tritsToTrytes, List.length_map, List.length_range]

theorem getElem_tritsToTrytes (ts : List ℤ) (hj : j < (tritsToTrytes ts).length) :
    (tritsToTrytes ts)[j] = tritsToTryte ((ts.drop (3 * j)).take 3) := by
  rw [List.getElem_of_eq (show tritsToTrytes ts = List.map _ _ from rfl), List.getElem_map,
    List.getElem_range]

/-- Up to three trits are one tryte. -/
theorem tritsToTrytes_short (h0 : ts ≠ []) (h3 : ts.length ≤ 3) :
    tritsToTrytes ts = [tritsToTryte ts] := by
  have hpos := List.length_pos_of_ne_nil h0
  rw [tritsToTrytes, show (ts.length + 2) / 3 = 1 by omega]
  show [tritsToTryte ((ts.drop 0).take 3)] = _
  rw [List.drop_zero, List.take_of_length_le h3]

/-- The head of round `j` of the writer. -/
structure Writes (E : Encoding) (ts : List ℤ) (out : List Int8) (j : ℕ) (s : Staging)
    (trytes : List Int8) : Prop where
  queue : Queued ts (min ts.length (3 * j)) (min ts.length (E.numTritsPerFlexTrit * s.i)) s
  counter : s.counter = ts.length - E.numTritsPerFlexTrit * s.i
  low : s.offset < E.numTritsPerFlexTrit
  index : s.i ≤ j
  small : j < 2 ^ 31
  trytes : trytes = blit out 0 ((tritsToTrytes ts).take j)

/-- The loop goes on as long as trytes are missing. -/
theorem Writes.done_iff {out : List Int8} (H : Writes E ts out j s trytes) :
    s.counter = 0 ∧ s.offset = 0 ↔ ts.length ≤ 3 * j := by
  have hoffset := H.queue.offset
  have hcounter := H.counter
  omega

/-- The tryte a round writes, and the state it leaves. -/
theorem Writes.flush {out : List Int8}
    (hq : Queued ts (3 * j) (min ts.length (E.numTritsPerFlexTrit * s.i)) s)
    (hE : E.Shifted) (hcounter : s.counter = ts.length - E.numTritsPerFlexTrit * s.i)
    (hfull : 3 ≤ s.offset ∨ s.counter = 0) (hhigh : s.offset ≤ E.numTritsPerFlexTrit + 2)
    (hindex : s.i ≤ j + 1) (hmore : 3 * j < ts.length) (hout : (ts.length + 2) / 3 ≤ out.length)
    (hsmall : j + 1 < 2 ^ 31) :
    Writes E ts out (j + 1)
      { s with trits := shiftOut s.trits 3, offset := s.offset - min 3 s.offset }
      (blit (blit out 0 ((tritsToTrytes ts).take j)) j
        (tritsToTrytes (s.trits.take (min 3 s.offset)))) := by
  have hw := Shifted.width hE
  have hoffset := hq.offset
  have hlength := hq.length
  have hj : j < (tritsToTrytes ts).length := by
    rw [length_tritsToTrytes]
    omega
  have hlen : ((tritsToTrytes ts).take j).length = j := by
    rw [List.length_take]
    omega
  rw [length_tritsToTrytes] at hj
  -- the first three staged trits, or the last ones, are those of the tryte that is due
  have hfront : s.trits.take (min 3 s.offset) = (ts.drop (3 * j)).take 3 := by
    rw [hq.front (Nat.min_le_right _ _), List.take_eq_take_iff, List.length_drop]
    omega
  have hshort : ((ts.drop (3 * j)).take 3).length ≤ 3 := List.length_take_le _ _
  have hne : (ts.drop (3 * j)).take 3 ≠ [] := by
    refine List.ne_nil_of_length_pos ?_
    rw [List.length_take, List.length_drop]
    omega
  refine ⟨?_, hcounter, ?_, hindex, hsmall, ?_⟩
  · have hnext : min ts.length (3 * (j + 1)) = 3 * j + min 3 s.offset := by omega
    rw [hnext]
    exact hq.shift (by omega) rfl rfl rfl (by omega)
  · show s.offset - min 3 s.offset < E.numTritsPerFlexTrit
    omega
  · rw [hfront, tritsToTrytes_short hne hshort,
      blit_singleton (by rw [length_blit (by omega)]; omega), set_blit_length hlen (by omega),
      ← getElem_tritsToTrytes ts (by rw [length_tritsToTrytes]; omega), List.take_append_getElem]

/-- One round: it goes on, or an index overflows. -/
theorem toTrytesRound_spec {out : List Int8} (H : Writes E ts out j s trytes) (hE : E.Shifted)
    (hsrc : Spells E src ts) (hmore : 3 * j < ts.length)
    (hout : (ts.length + 2) / 3 ≤ out.length) :
    (toTrytesRound E src j s trytes = none ∧ 2 ^ 31 ≤ (ts.length + 2) / 3) ∨
      ∃ s' trytes', toTrytesRound E src j s trytes = some (s', trytes') ∧
        (j + 1 < 2 ^ 31 → Writes E ts out (j + 1) s' trytes') := by
  have hw := Shifted.width hE
  have hq := H.queue
  have hlow := H.low
  have hindex := H.index
  have hcounter := H.counter
  rw [Nat.min_eq_right hmore.le] at hq
  have hoffset := hq.offset
  rw [toTrytesRound, H.trytes]
  by_cases hrefill : s.offset < 3
  · simp only [if_pos hrefill, intSucc]
    split_ifs with hi
    · have hmul : E.numTritsPerFlexTrit * (s.i + 1) =
          E.numTritsPerFlexTrit * s.i + E.numTritsPerFlexTrit := Nat.mul_succ _ _
      have hstaged := hq.stage hcounter hsrc (by omega)
      have hoffset' := hstaged.offset
      refine Or.inr ⟨_, _, rfl, fun hsmall => ?_⟩
      refine Writes.flush (s := { stage E src s with i := s.i + 1 })
        ⟨hstaged.length, hoffset', hstaged.staged⟩ hE ?_ ?_ ?_ ?_ hmore hout hsmall
      · show s.counter - min E.numTritsPerFlexTrit s.counter = _ - _ * (s.i + 1)
        omega
      · show 3 ≤ (stage E src s).offset ∨ s.counter - min E.numTritsPerFlexTrit s.counter = 0
        omega
      · show s.offset + min E.numTritsPerFlexTrit s.counter ≤ _
        omega
      · show s.i + 1 ≤ j + 1
        omega
    · exact Or.inl ⟨rfl, by omega⟩
  · simp only [if_neg hrefill, Option.map_some]
    exact Or.inr ⟨_, _, rfl, fun hsmall => Writes.flush hq hE hcounter (Or.inl (by omega))
      (by omega) (by omega) hmore hout hsmall⟩

theorem toTrytesLoop_done (fuel j : ℕ) (h : s.counter = 0 ∧ s.offset = 0) :
    toTrytesLoop E src fuel j s trytes = some trytes := by
  cases fuel with
  | zero => rw [toTrytesLoop, if_pos h]
  | succ fuel => rw [toTrytesLoop, if_pos h]

/-- **What the writer's loop leaves**, unless the trytes outnumber an `int`. -/
theorem toTrytesLoop_spec {out : List Int8} (hE : E.Shifted) (hsrc : Spells E src ts)
    (hout : (ts.length + 2) / 3 ≤ out.length) {fuel : ℕ} (hfuel : ts.length - 3 * j ≤ fuel)
    (H : Writes E ts out j s trytes) :
    (toTrytesLoop E src fuel j s trytes = none ∧ 2 ^ 31 ≤ (ts.length + 2) / 3) ∨
      (toTrytesLoop E src fuel j s trytes = some (blit out 0 (tritsToTrytes ts)) ∧
        (ts.length + 2) / 3 < 2 ^ 31) := by
  have hsmall := H.small
  have hdone : ∀ {fuel j s trytes}, Writes E ts out j s trytes → ts.length ≤ 3 * j →
      toTrytesLoop E src fuel j s trytes = some (blit out 0 (tritsToTrytes ts)) := by
    intro fuel j s trytes H hle
    rw [toTrytesLoop_done _ _ (H.done_iff.mpr hle), H.trytes,
      List.take_of_length_le (by rw [length_tritsToTrytes]; omega)]
  induction fuel generalizing j s trytes with
  | zero => exact Or.inr ⟨hdone H (by omega), by omega⟩
  | succ fuel ih =>
    rcases Nat.lt_or_ge (3 * j) ts.length with hmore | hle
    · rw [toTrytesLoop, if_neg (fun h => absurd (H.done_iff.mp h) (by omega))]
      rcases toTrytesRound_spec H hE hsrc hmore hout with ⟨hnone, hlong⟩ | ⟨s', trytes', hround, H'⟩
      · simp only [hnone, Option.bind_none]
        exact Or.inl ⟨trivial, hlong⟩
      · simp only [hround, Option.bind_some, intSucc]
        split_ifs with hj
        · exact ih (by omega) (H' hj) hj
        · exact Or.inl ⟨rfl, by omega⟩
    · exact Or.inr ⟨hdone H hle, by omega⟩

/-! ## From trytes to flex trits -/

@[simp] theorem length_tryteTrits (v : ℕ) : (tryteTrits v).length = 3 := length_digits 3 _

@[simp] theorem length_trytesToTrits (trytes : List Int8) :
    (trytesToTrits trytes).length = 3 * trytes.length :=
  length_flatMap_blocks (fun _ => length_tryteTrits _) trytes

theorem trits_trytesToTrits (trytes : List Int8) : Trits (trytesToTrits trytes) := by
  intro t ht
  obtain ⟨c, -, hc⟩ := List.mem_flatMap.mp ht
  exact trits_digits 3 _ t hc

/-- The three trits of a tryte, in those of the trytes. -/
theorem take_drop_trytesToTrits (hk : k < trytes.length) :
    ((trytesToTrits trytes).drop (3 * k)).take 3 = trytesToTrits [trytes.getD k 0] := by
  have hblock := block_flatMap (w := 3) (g := fun c => tryteTrits (indexOfTryte c))
    (fun _ => length_tryteTrits _) hk
  rw [block] at hblock
  rw [trytesToTrits, hblock, trytesToTrits, List.flatMap_singleton, List.getD_eq_getElem?_getD,
    List.getElem?_eq_getElem hk, Option.getD_some]

/-- A tryte is staged. -/
theorem Queued.stageTryte {trs : List Int8} (H : Queued ts p (3 * s.i) s)
    (hread : ((ts.drop (3 * s.i)).take 3) = trytesToTrits [trs.getD s.i 0])
    (hroom : s.offset + 3 ≤ 8) : Queued ts p (3 * (s.i + 1)) (stageTryte trs s) := by
  have hlength := H.length
  have hnew : (trytesToTrits [trs.getD s.i 0]).length = 3 := length_trytesToTrits _
  have hfront : (s.trits.take s.offset).length = s.offset := by
    rw [List.length_take]
    omega
  rw [Nat.mul_succ]
  refine H.push ?_ rfl ?_ ?_
  · show (blit _ _ _).length = 8
    rw [length_blit (by omega), hlength]
  · show (blit _ _ _).take s.offset = _
    rw [blit, List.append_assoc, List.take_left' hfront]
  · show ((blit _ _ _).drop s.offset).take 3 = _
    have htake : ((blit s.trits s.offset (trytesToTrits [trs.getD s.i 0])).drop s.offset).take
        (trytesToTrits [trs.getD s.i 0]).length = trytesToTrits [trs.getD s.i 0] :=
      take_drop_blit (by omega)
    rw [hnew] at htake
    rw [htake, hread]

/-- The rounds in which the reader's loop counts a tryte it does not read: one, when the last flex
trit has one or two trits. -/
def drained (E : Encoding) (m : ℕ) : ℕ :=
  if 3 * m % E.numTritsPerFlexTrit = 1 ∨ 3 * m % E.numTritsPerFlexTrit = 2 then 1 else 0

theorem drained_eq {r : ℕ} (h : E.numTritsPerFlexTrit * j + r = 3 * m)
    (hr : r < E.numTritsPerFlexTrit ∨ r = E.numTritsPerFlexTrit ∧ 2 < r) :
    drained E m = if r = 1 ∨ r = 2 then 1 else 0 := by
  rw [drained, ← h, Nat.mul_add_mod]
  rcases hr with hr | ⟨rfl, hr⟩
  · rw [Nat.mod_eq_of_lt hr]
  · rw [Nat.mod_self]
    exact (if_neg (by omega)).trans (if_neg (by omega)).symm

/-- Trits for one flex trit. -/
theorem pack_short (h0 : ts ≠ []) (hw : ts.length ≤ E.numTritsPerFlexTrit) :
    pack E ts = [packByte E ts] := by
  have hpos := List.length_pos_of_ne_nil h0
  have hcells : E.numFlexTritsForTrits ts.length = 1 := by
    have hle : E.numFlexTritsForTrits ts.length ≤ 1 := numFlexTritsForTrits_le (by omega)
    have hge := numFlexTritsForTrits_pos (E := E) hpos.ne'
    omega
  rw [pack, Packing.pack, ← numFlexTritsForTrits_eq, hcells]
  show [packByte E ((ts.drop (E.numTritsPerFlexTrit * 0)).take E.numTritsPerFlexTrit)] = _
  rw [Nat.mul_zero, List.drop_zero, List.take_of_length_le hw]

/-- The head of round `j` of the reader. -/
structure Reads (E : Encoding) (ts : List ℤ) (m : ℕ) (out : List FlexTrit) (j : ℕ) (s : Staging)
    (dst : List FlexTrit) : Prop where
  queue : Queued ts (min ts.length (E.numTritsPerFlexTrit * j)) (3 * (m - s.counter)) s
  counter : s.counter ≤ m
  low : s.offset ≤ 2
  index : s.i + s.counter = m + if s.counter = 0 ∧ s.offset = 0 then drained E m else 0
  ahead : j ≤ s.i
  small : s.i < 2 ^ 31
  dst : dst = blit out 0 ((pack E ts).take j)

/-- The loop goes on as long as flex trits are missing. -/
theorem Reads.done_iff (H : Reads E ts m out j s dst) (hlen : ts.length = 3 * m) :
    s.counter = 0 ∧ s.offset = 0 ↔ ts.length ≤ E.numTritsPerFlexTrit * j := by
  have hoffset := H.queue.offset
  have hcounter := H.counter
  omega

/-- The flex trit a round writes, and the state it leaves. -/
theorem Reads.flush (hq : Queued ts (E.numTritsPerFlexTrit * j) (3 * (m - s.counter)) s)
    (hE : E.Shifted) (hts : Trits ts) (hlen : ts.length = 3 * m)
    (hmore : E.numTritsPerFlexTrit * j < ts.length)
    (hout : E.numFlexTritsForTrits ts.length ≤ out.length)
    (hcounter : s.counter ≤ m) (hfull : E.numTritsPerFlexTrit ≤ s.offset ∨ s.counter = 0)
    (hhigh : s.offset ≤ E.numTritsPerFlexTrit + 2)
    (hindex : s.i + 1 + s.counter = m + if s.offset ≤ 2 then 1 else 0)
    (hahead : j ≤ s.i) (hsmall : s.i + 1 < 2 ^ 31) :
    Reads E ts m out (j + 1)
      { s with
        trits := shiftOut s.trits (min E.numTritsPerFlexTrit s.offset)
        offset := s.offset - min E.numTritsPerFlexTrit s.offset
        i := s.i + 1 }
      ((blit out 0 ((pack E ts).take j)).take j ++
        (flexTritsFromTrits E ((blit out 0 ((pack E ts).take j)).drop j)
          (min E.numTritsPerFlexTrit s.offset) s.trits (min E.numTritsPerFlexTrit s.offset)
          (min E.numTritsPerFlexTrit s.offset)).1) := by
  have hw := Shifted.width hE
  have hoffset := hq.offset
  have hlength := hq.length
  have hmul : E.numTritsPerFlexTrit * (j + 1) =
      E.numTritsPerFlexTrit * j + E.numTritsPerFlexTrit := Nat.mul_succ _ _
  obtain ⟨v, hv⟩ : ∃ v, v = min E.numTritsPerFlexTrit s.offset := ⟨_, rfl⟩
  rw [← hv]
  -- what is staged begins with the trits of the flex trit that is due
  have hchunk : s.trits.take v = (packing E).chunk ts j := by
    rw [hq.front (by omega), Packing.chunk, packing_width, List.take_eq_take_iff, List.length_drop]
    omega
  have hv' : ((packing E).chunk ts j).length = v := by
    rw [Packing.length_chunk, packing_width]
    omega
  refine ⟨?_, hcounter, ?_, ?_, ?_, hsmall, ?_⟩
  · have hnext : min ts.length (E.numTritsPerFlexTrit * (j + 1)) =
        E.numTritsPerFlexTrit * j + v := by omega
    rw [hnext]
    exact hq.shift (by omega) (by omega : v = min v s.offset) rfl rfl (by omega)
  · show s.offset - v ≤ 2
    omega
  · show s.i + 1 + s.counter = m + if s.counter = 0 ∧ s.offset - v = 0 then drained E m else 0
    by_cases hend : s.counter = 0 ∧ s.offset - v = 0
    · rw [if_pos hend, hindex, drained_eq (j := j) (r := s.offset) (by omega) (by omega)]
      congr 1
      exact if_congr (by omega) rfl rfl
    · rw [if_neg hend, hindex, if_neg (by omega)]
  · show j + 1 ≤ s.i + 1
    omega
  · have hj : j < (pack E ts).length := by
      rw [length_pack, numFlexTritsForTrits_eq, Packing.lt_cells]
      exact hmore
    have hcell : (pack E ts)[j] = packByte E ((packing E).chunk ts j) := by
      have hget := getD_pack (E := E) hmore
      rwa [List.getD_eq_getElem?_getD, List.getElem?_eq_getElem hj, Option.getD_some] at hget
    have hfront : ((pack E ts).take j).length = j := by
      rw [List.length_take]
      omega
    rw [length_pack] at hj
    have hblit : (blit out 0 ((pack E ts).take j)).length = out.length :=
      length_blit (by omega)
    have hpack : pack E ((packing E).chunk ts j) = [packByte E ((packing E).chunk ts j)] :=
      pack_short (List.ne_nil_of_length_pos (by omega)) (packing E).length_chunk_le
    have hwrite := flexTritsFromTrits_pack (E := E) ((blit out 0 ((pack E ts).take j)).drop j)
      s.trits v (trits_chunk hts j) (by rw [hv', hchunk]) (by omega) hv'.le (by
        rw [← length_pack, hpack, List.length_drop, List.length_singleton]
        omega)
    rw [hv', hpack] at hwrite
    rw [hwrite, take_append_blit_drop, blit_singleton (by omega), set_blit_length hfront (by omega),
      ← hcell, List.take_append_getElem]

/-- One round: it goes on, or an index overflows. -/
theorem fromTrytesRound_spec (H : Reads E ts m out j s dst) (hE : E.Shifted) (hts : Trits ts)
    (hlen : ts.length = 3 * m)
    (hread : ∀ k < m, (ts.drop (3 * k)).take 3 = trytesToTrits [trytes.getD k 0])
    (hmore : E.numTritsPerFlexTrit * j < ts.length)
    (hout : E.numFlexTritsForTrits ts.length ≤ out.length) :
    (fromTrytesRound E trytes j s dst = none ∧ 2 ^ 31 ≤ m + drained E m) ∨
      ∃ s' dst', fromTrytesRound E trytes j s dst = some (s', dst') ∧
        Reads E ts m out (j + 1) s' dst' := by
  have hw := Shifted.width hE
  have hlow := H.low
  have hcounter := H.counter
  have hindex := H.index
  have hahead := H.ahead
  rw [if_neg fun h => absurd ((H.done_iff hlen).mp h) (by omega), Nat.add_zero] at hindex
  have hq := H.queue
  rw [Nat.min_eq_right hmore.le] at hq
  have hoffset := hq.offset
  rw [fromTrytesRound, H.dst]
  by_cases hleft : s.counter = 0
  · -- the trits left behind by the last tryte
    have hdrained : drained E m = 1 := by
      rw [drained_eq (j := j) (r := s.offset) (by omega) (by omega)]
      exact if_pos (by omega)
    simp only [if_neg (not_not.mpr hleft), Option.bind_some, intSucc]
    split_ifs with hi
    · refine Or.inr ⟨_, _, rfl, Reads.flush hq hE hts hlen hmore hout hcounter (Or.inr hleft)
        (by omega) ?_ hahead hi⟩
      rw [if_pos hlow]
      omega
    · exact Or.inl ⟨rfl, by omega⟩
  · obtain ⟨s₁, hs₁⟩ : ∃ s₁, s₁ = stageTryte trytes s := ⟨_, rfl⟩
    have hoffset₁ : s₁.offset = s.offset + 3 := congrArg Staging.offset hs₁
    have hcounter₁ : s₁.counter = s.counter - 1 := congrArg Staging.counter hs₁
    have hi₁ : s₁.i = s.i := by
      rw [hs₁]
      rfl
    have hq₁ : Queued ts (E.numTritsPerFlexTrit * j) (3 * (s.i + 1)) s₁ := by
      rw [hs₁]
      exact Queued.stageTryte ⟨hq.length, by omega, hq.staged⟩ (hread s.i (by omega)) (by omega)
    simp only [if_pos hleft, ← hs₁]
    by_cases hmore₁ : s₁.offset < E.numTritsPerFlexTrit ∧ s₁.counter ≠ 0
    · -- one tryte is not enough
      simp only [if_pos hmore₁, hi₁, intSucc]
      split_ifs with hi
      · obtain ⟨s₂, hs₂⟩ : ∃ s₂, s₂ = stageTryte trytes { s₁ with i := s.i + 1 } := ⟨_, rfl⟩
        have hoffset₂ : s₂.offset = s₁.offset + 3 := congrArg Staging.offset hs₂
        have hcounter₂ : s₂.counter = s₁.counter - 1 := congrArg Staging.counter hs₂
        have hi₂ : s₂.i = s.i + 1 := by
          rw [hs₂]
          rfl
        have hq₂ : Queued ts (E.numTritsPerFlexTrit * j) (3 * (s.i + 1 + 1)) s₂ := by
          rw [hs₂]
          refine Queued.stageTryte (s := { s₁ with i := s.i + 1 })
            ⟨hq₁.length, hq₁.offset, hq₁.staged⟩ (hread (s.i + 1) (by omega)) ?_
          show s₁.offset + 3 ≤ 8
          omega
        simp only [Option.map_some, Option.bind_some, ← hs₂, hi₂]
        split_ifs with hi'
        · have hall : 3 * (m - s₂.counter) = 3 * (s.i + 1 + 1) := by omega
          have hflush := Reads.flush (hall ▸ hq₂) hE hts hlen hmore hout (by omega)
            (Or.inl (by omega)) (by omega) (by rw [if_neg (by omega)]; omega)
            (show j ≤ s₂.i by omega) (by omega)
          rw [hi₂] at hflush
          exact Or.inr ⟨_, _, rfl, hflush⟩
        · exact Or.inl ⟨rfl, by omega⟩
      · exact Or.inl ⟨rfl, by omega⟩
    · simp only [if_neg hmore₁, Option.bind_some, hi₁, intSucc]
      split_ifs with hi
      · have hall : 3 * (m - s₁.counter) = 3 * (s.i + 1) := by omega
        have hflush := Reads.flush (hall ▸ hq₁) hE hts hlen hmore hout (by omega) (by omega)
          (by omega) (by rw [if_neg (by omega)]; omega) (show j ≤ s₁.i by omega) (by omega)
        rw [hi₁] at hflush
        exact Or.inr ⟨_, _, rfl, hflush⟩
      · exact Or.inl ⟨rfl, by omega⟩

theorem fromTrytesLoop_done (fuel j : ℕ) (h : s.counter = 0 ∧ s.offset = 0) :
    fromTrytesLoop E trytes fuel j s dst = some dst := by
  cases fuel with
  | zero => rw [fromTrytesLoop, if_pos h]
  | succ fuel => rw [fromTrytesLoop, if_pos h]

/-- **What the reader's loop leaves**, unless the trytes it counts outnumber an `int`. -/
theorem fromTrytesLoop_spec (hE : E.Shifted) (hts : Trits ts) (hlen : ts.length = 3 * m)
    (hread : ∀ k < m, (ts.drop (3 * k)).take 3 = trytesToTrits [trytes.getD k 0])
    (hout : E.numFlexTritsForTrits ts.length ≤ out.length) {fuel : ℕ}
    (hfuel : ts.length ≤ E.numTritsPerFlexTrit * j + 3 * fuel) (H : Reads E ts m out j s dst) :
    (fromTrytesLoop E trytes fuel j s dst = none ∧ 2 ^ 31 ≤ m + drained E m) ∨
      (fromTrytesLoop E trytes fuel j s dst = some (blit out 0 (pack E ts)) ∧
        m + drained E m < 2 ^ 31) := by
  have hw := Shifted.width hE
  have hdone : ∀ {fuel j s dst}, Reads E ts m out j s dst →
      ts.length ≤ E.numTritsPerFlexTrit * j →
        fromTrytesLoop E trytes fuel j s dst = some (blit out 0 (pack E ts)) ∧
          m + drained E m < 2 ^ 31 := by
    intro fuel j s dst H hle
    have hend := (H.done_iff hlen).mpr hle
    have hindex := H.index
    have hsmall := H.small
    rw [if_pos hend] at hindex
    refine ⟨?_, by omega⟩
    rw [fromTrytesLoop_done _ _ hend, H.dst, List.take_of_length_le]
    rw [length_pack]
    exact numFlexTritsForTrits_le hle
  induction fuel generalizing j s dst with
  | zero => exact Or.inr (hdone H (by omega))
  | succ fuel ih =>
    rcases Nat.lt_or_ge (E.numTritsPerFlexTrit * j) ts.length with hmore | hle
    · rw [fromTrytesLoop, if_neg (fun h => absurd ((H.done_iff hlen).mp h) (by omega))]
      rcases fromTrytesRound_spec H hE hts hlen hread hmore hout with ⟨hnone, hlong⟩ |
        ⟨s', dst', hround, H'⟩
      · simp only [hnone, Option.bind_none]
        exact Or.inl ⟨trivial, hlong⟩
      · have hj : j + 1 < 2 ^ 31 := Nat.lt_of_le_of_lt H'.ahead H'.small
        have hmul : E.numTritsPerFlexTrit * (j + 1) =
          E.numTritsPerFlexTrit * j + E.numTritsPerFlexTrit := Nat.mul_succ _ _
        simp only [hround, Option.bind_some, intSucc, if_pos hj]
        exact ih (by omega) H'
    · exact Or.inr (hdone H hle)

end Trinary

end Entangled
