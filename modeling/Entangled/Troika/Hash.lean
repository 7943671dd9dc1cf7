import Entangled.Mam.Spongos
import Entangled.Troika.Sliced
import Mathlib.Data.List.GetD
/-!
# The two sponges are one hash

What the sliced implementation absorbs and squeezes is what the plain one does, for every input and
length of the output (`ftroikaVarRounds_eq`), and what it makes of a hash that is hashed again and
again without leaving the slices is that many hashes (`ftroika243Repeated_eq`). The sponge of MAM
goes through either; as a transformation of its state they are the same (`mamFtroika_eq`).
-/

namespace Entangled

namespace Troika

/-! ## The counters of the loops -/

theorem wrap_spec {rowcol : ℕ} (slice : ℕ) (h : rowcol ≤ 27) :
    (wrap rowcol slice).1 < 27 ∧
      27 * (wrap rowcol slice).2 + (wrap rowcol slice).1 = 27 * slice + rowcol := by
  unfold wrap
  split
  · next h27 =>
    rw [h27]
    exact ⟨Nat.zero_lt_succ _, by ring⟩
  · next hne => exact ⟨by omega, rfl⟩

/-- The counters run through rows and slices. -/
theorem foldl_wrap {α : Type} (g : α → ℕ → ℕ → ℕ → α) (a : α) (n : ℕ) :
    let c := (List.range n).foldl (fun (c : α × ℕ × ℕ) i =>
      (g c.1 (wrap c.2.1 c.2.2).1 (wrap c.2.1 c.2.2).2 i, (wrap c.2.1 c.2.2).1 + 1,
        (wrap c.2.1 c.2.2).2)) (a, 0, 0)
    c.1 = (List.range n).foldl (fun a i => g a (i % 27) (i / 27) i) a ∧
      c.2.1 ≤ 27 ∧ 27 * c.2.2 + c.2.1 = n := by
  induction n with
  | zero => exact ⟨rfl, Nat.zero_le _, rfl⟩
  | succ n ih =>
    obtain ⟨hfst, hle, hn⟩ := ih
    simp only [List.range_succ, List.foldl_append, List.foldl_cons, List.foldl_nil]
    generalize (List.range n).foldl _ (a, 0, 0) = c at hfst hle hn
    obtain ⟨hlt, hsum⟩ := wrap_spec c.2.2 hle
    have hrow : (wrap c.2.1 c.2.2).1 = n % 27 := by omega
    have hslice : (wrap c.2.1 c.2.2).2 = n / 27 := by omega
    refine ⟨?_, by omega, by omega⟩
    rw [hfst, hrow, hslice]

theorem ftroikaTritsToRate_eq (f : FState) (trits : List Digit) (len : ℕ) :
    ftroikaTritsToRate f trits len =
      (List.range len).foldl (fun f i => ftSet f (i % 27) (i / 27) (trits.getD i 0)) f :=
  (foldl_wrap (fun f r z i => ftSet f r z (trits.getD i 0)) f len).1

theorem foldl_append_singleton {α : Type} (g : ℕ → α) (n : ℕ) :
    (List.range n).foldl (fun out i => out ++ [g i]) [] = (List.range n).map g := by
  induction n with
  | zero => rfl
  | succ n ih =>
    rw [List.range_succ, List.foldl_append, ih, List.map_append]
    rfl

theorem ftroikaRateToTrits_eq (f : FState) (len : ℕ) :
    ftroikaRateToTrits f len = (List.range len).map fun i => ftGet f (i % 27) (i / 27) :=
  (foldl_wrap (fun out r z _ => out ++ [ftGet f r z]) [] len).1.trans
    (foldl_append_singleton _ len)

/-! ## Trits in and out -/

variable {f : FState} {s : State}

theorem getElem_ftSet {r z lane : ℕ} {d : Digit} (hr : r < 27) (hlane : lane < 27) :
    (ftSet f r z d)[lane] = if r = lane then f[r].set z d else f[lane] := by
  rw [ftSet, dif_pos hr, Vector.getElem_set]

/-- A trit is written to both. -/
theorem Slices.set (h : Slices f s) (i : ℕ) (d : Digit) :
    Slices (ftSet f (i % 27) (i / 27) d) (s.setIfInBounds i d) := by
  intro slice lane hslice hlane
  rw [getElem_ftSet (Nat.mod_lt _ (by decide)) hlane, Vector.getElem_setIfInBounds]
  by_cases hr : i % 27 = lane
  · subst hr
    rw [if_pos rfl]
    by_cases hz : i / 27 = slice
    · rw [if_pos (by omega), hz]
      exact T27.holds_set _ (by omega) d
    · rw [if_neg (by omega)]
      exact (h slice (i % 27) hslice hlane).set hz (by omega)
  · rw [if_neg hr, if_neg (by omega)]
    exact h slice lane hslice hlane

/-- A trit is read from both. -/
theorem Slices.get (h : Slices f s) {i : ℕ} (hi : i < 729) :
    ftGet f (i % 27) (i / 27) = s[i] := by
  have hheld := h (i / 27) (i % 27) (by omega) (Nat.mod_lt _ (by decide))
  have hplace : 27 * (i / 27) + i % 27 = i := by omega
  simp only [hplace] at hheld
  rw [ftGet, dif_pos (Nat.mod_lt _ (by decide))]
  exact hheld.get (by omega)

/-- A block is put over both. -/
theorem Slices.overwrite (h : Slices f s) {len : ℕ} (hlen : len ≤ 729) (block : List Digit) :
    Slices (ftroikaTritsToRate f block len) (overwrite len block s) := by
  rw [ftroikaTritsToRate_eq]
  induction len with
  | zero => exact h
  | succ n ih =>
    simp only [Troika.overwrite, List.range_succ, List.foldl_append, List.foldl_cons,
      List.foldl_nil]
    exact (ih (Nat.le_of_succ_le hlen)).set n _

/-- A block is read from both. -/
theorem Slices.extract (h : Slices f s) {len : ℕ} (hlen : len ≤ 729) :
    ftroikaRateToTrits f len = extract len s := by
  rw [ftroikaRateToTrits_eq, Troika.extract]
  refine List.map_congr_left fun i hi => ?_
  have hi729 : i < 729 := Nat.lt_of_lt_of_le (List.mem_range.mp hi) hlen
  rw [h.get hi729, Vector.getElem?_eq_getElem hi729, Option.getD_some]

/-! ## The hash -/

/-- **Both absorb a message**, at every rate. -/
theorem Slices.absorb {rate rounds : ℕ} (hrate : rate ≤ 729) (hrounds : rounds ≤ numRounds)
    (h : Slices f s) (message : List Digit) :
    Slices (ftroikaAbsorb rate rounds f message) (troikaAbsorb rate rounds s message) := by
  induction s, message using troikaAbsorb.induct rate rounds generalizing f with
  | case1 s message hblock ih =>
    rw [ftroikaAbsorb, dif_pos hblock, troikaAbsorb, dif_pos hblock]
    exact ih ((h.overwrite hrate message).permutation hrounds)
  | case2 s message hlast =>
    rw [ftroikaAbsorb, dif_neg hlast, troikaAbsorb, dif_neg hlast]
    exact h.overwrite hrate _

/-- **Both squeeze the same trits**, at every rate. -/
theorem Slices.squeeze {rate rounds : ℕ} (hpos : 0 < rate) (hrate : rate ≤ 729)
    (hrounds : rounds ≤ numRounds) (h : Slices f s) (hashLength : ℕ) :
    (ftroikaSqueeze rate rounds hashLength f).1 = (troikaSqueeze rate rounds hashLength s).1 ∧
      Slices (ftroikaSqueeze rate rounds hashLength f).2
        (troikaSqueeze rate rounds hashLength s).2 := by
  have hnext := h.permutation hrounds
  induction hashLength using Nat.strong_induction_on generalizing f s with
  | h hashLength ih =>
    rw [ftroikaSqueeze, troikaSqueeze]
    by_cases hblock : 0 < rate ∧ rate ≤ hashLength
    · rw [dif_pos hblock, dif_pos hblock]
      obtain ⟨hout, hlast⟩ := ih (hashLength - rate) (by omega) hnext (hnext.permutation hrounds)
      dsimp only
      exact ⟨by rw [hnext.extract hrate, hout], hlast⟩
    · have hmod : hashLength % rate = hashLength := Nat.mod_eq_of_lt (by omega)
      rw [dif_neg hblock, dif_neg hblock, hmod]
      by_cases hzero : hashLength = 0
      · rw [if_neg (by omega), if_neg (not_not_intro hzero)]
        exact ⟨rfl, h⟩
      · rw [if_pos (by omega), if_pos hzero]
        exact ⟨hnext.extract (by omega), hnext⟩

theorem slices_zero : Slices (Vector.replicate 27 ⟨0, 0⟩) (Vector.replicate 729 0) := by
  intro slice lane hslice hlane
  rw [Vector.getElem_replicate, Vector.getElem_replicate]
  exact T27.holds_zero slice

/-- **The sliced hash is the hash**, of every input, at every length and every number of rounds. -/
theorem ftroikaVarRounds_eq {rounds : ℕ} (hrounds : rounds ≤ numRounds) (outLen : ℕ)
    (input : List Digit) :
    ftroikaVarRounds rounds outLen input = troikaVarRounds rounds outLen input := by
  have habsorbed : Slices (ftroikaAbsorb troikaRate rounds (Vector.replicate 27 ⟨0, 0⟩) input)
      (troikaAbsorb troikaRate rounds (Vector.replicate 729 0) input) :=
    slices_zero.absorb (by decide) hrounds input
  exact (habsorbed.squeeze (by decide) (by decide) hrounds outLen).1

theorem ftroikaVarRounds_eq_full : ftroikaVarRounds 24 500 [1, 0, 2, 2] =
    troikaVarRounds 24 500 [1, 0, 2, 2] :=
  ftroikaVarRounds_eq (by decide) 500 [1, 0, 2, 2]

/-! ## Hash after hash -/

theorem getElem_overwrite {n : ℕ} (hn : n ≤ 729) (block : List Digit) (s : State) {i : ℕ}
    (hi : i < 729) : (overwrite n block s)[i] = if i < n then block.getD i 0 else s[i] := by
  induction n with
  | zero => rfl
  | succ n ih =>
    have hstep : overwrite (n + 1) block s =
        (overwrite n block s).setIfInBounds n (block.getD n 0) := by
      simp only [overwrite, List.range_succ, List.foldl_append, List.foldl_cons, List.foldl_nil]
    rw [hstep, Vector.getElem_setIfInBounds, ih (Nat.le_of_succ_le hn)]
    by_cases hni : n = i
    · subst hni
      rw [if_pos rfl, if_pos (Nat.lt_succ_self n)]
    · rw [if_neg hni]
      exact if_congr (by omega) rfl rfl

theorem T27.Holds.mask {a : T27} {i : ℕ} {d : Digit} (h : a.Holds i d) (mask : BitVec 32) :
    (⟨a.p &&& mask, a.n &&& mask⟩ : T27).Holds i (if mask.getLsbD i then d else 0) := by
  constructor <;> dsimp only <;> rw [BitVec.getLsbD_and] <;> split <;> simp_all [h.p, h.n]

theorem getLsbD_rateMasks (slice : Fin 27) :
    (0x000001ff#32).getLsbD slice = decide (slice.val < 9) ∧
      (0x07fffe00#32).getLsbD slice = decide (9 ≤ slice.val) := by
  decide +revert

/-- The capacity is cleared: what is left are the 243 trits of the rate. -/
theorem Slices.nullifyCapacity (h : Slices f s) :
    Slices (ftroikaNullifyCapacity f)
      (Troika.overwrite 243 (Troika.extract 243 s) (Vector.replicate 729 0)) := by
  intro slice lane hslice hlane
  have hmask := (getLsbD_rateMasks ⟨slice, hslice⟩).1
  have hheld := (h slice lane hslice hlane).mask 0x000001ff#32
  rw [getElem_overwrite (by decide) _ _ (by omega), ftroikaNullifyCapacity, ftroikaMask,
    Vector.getElem_map]
  refine (congrArg (T27.Holds _ slice) ?_).mp hheld
  rw [hmask]
  by_cases hrate : slice < 9
  · rw [if_pos (decide_eq_true hrate), if_pos (by omega), Troika.extract,
      List.getD_eq_getElem?_getD, List.getElem?_map, List.getElem?_range (by omega)]
    simp only [Option.map_some, Option.getD_some]
    rw [Vector.getElem?_eq_getElem (by omega), Option.getD_some]
  · rw [if_neg (by simpa using hrate), if_neg (by omega), Vector.getElem_replicate]

/-- The rate is cleared, and the padding put into it: the last block of a message that ends here. -/
theorem Slices.nullifyRate (h : Slices f s) :
    Slices (ftSet (ftroikaNullifyRate f) 0 0 1) (Troika.overwrite 243 (lastBlock 243 []) s) := by
  have hcleared : Slices (ftroikaNullifyRate f)
      (Troika.overwrite 243 (List.replicate 243 0) s) := by
    intro slice lane hslice hlane
    have hmask := (getLsbD_rateMasks ⟨slice, hslice⟩).2
    have hheld := (h slice lane hslice hlane).mask 0x07fffe00#32
    rw [getElem_overwrite (by decide) _ _ (by omega), ftroikaNullifyRate, ftroikaMask,
      Vector.getElem_map]
    refine (congrArg (T27.Holds _ slice) ?_).mp hheld
    rw [hmask]
    by_cases hrate : 9 ≤ slice
    · rw [if_pos (decide_eq_true hrate), if_neg (by omega)]
    · rw [if_neg (by simpa using hrate), if_pos (by omega), List.getD_replicate _ (by omega)]
  have hpadded := hcleared.set 0 1
  have hblock : (Troika.overwrite 243 (List.replicate 243 0) s).setIfInBounds 0 1 =
      Troika.overwrite 243 (lastBlock 243 []) s := by
    refine Vector.ext fun i hi => ?_
    rw [Vector.getElem_setIfInBounds, getElem_overwrite (by decide) _ _ hi,
      getElem_overwrite (by decide) _ _ hi]
    cases i with
    | zero => rfl
    | succ i =>
      rw [if_neg (Nat.succ_ne_zero i).symm]
      refine ite_congr rfl (fun hlt => ?_) fun _ => rfl
      have hlast : lastBlock 243 [] = 1 :: List.replicate 242 0 := rfl
      rw [hlast, List.getD_cons_succ, List.getD_replicate _ hlt, List.getD_replicate _ (by omega)]
  rwa [hblock] at hpadded

/-- A hash of 243 trits and its state, as the sliced loop leaves it. -/
def troika243Step (s : State) : State :=
  let s' := troikaPermutation 24 (overwrite 243 (extract 243 s) (Vector.replicate 729 0))
  troikaPermutation 24 (overwrite 243 (lastBlock 243 []) s')

theorem Slices.step243 (h : Slices f s) : Slices (ftroika243Step f) (troika243Step s) :=
  (h.nullifyCapacity.permutation (by decide)).nullifyRate.permutation (by decide)

/-- A step leaves the hash of what was there. -/
theorem extract_troika243Step (s : State) :
    extract 243 (troika243Step s) = troika 243 (extract 243 s) := by
  have hlength : (extract 243 s).length = 243 := by rw [extract, List.length_map, List.length_range]
  have hdrop : (extract 243 s).drop 243 = [] := List.drop_of_length_le (by rw [hlength])
  rw [troika, troikaVarRounds, troikaAbsorb, dif_pos ⟨by decide, by rw [hlength]; decide⟩,
    troikaRate, hdrop, troikaAbsorb, dif_neg (by simp), troikaSqueeze, dif_pos (by decide)]
  have hend : ∀ s' : State, (troikaSqueeze 243 numRounds (243 - 243) s').1 = [] := fun s' => by
    rw [troikaSqueeze, dif_neg (by decide), if_neg (by decide)]
  simp only [hend, List.append_nil]
  rfl

theorem Slices.iterate (h : Slices f s) (times : ℕ) :
    Slices (ftroika243Step^[times] f) (troika243Step^[times] s) := by
  induction times generalizing f s with
  | zero => exact h
  | succ n ih => exact ih h.step243

theorem extract_iterate (s : State) (times : ℕ) :
    extract 243 (troika243Step^[times] s) = (troika 243)^[times] (extract 243 s) := by
  induction times generalizing s with
  | zero => rfl
  | succ n ih =>
    rw [Function.iterate_succ_apply, Function.iterate_succ_apply, ih, extract_troika243Step]

theorem extract_overwrite {block : List Digit} {n : ℕ} (hn : n ≤ 729) (hblock : block.length = n)
    (s : State) : extract n (overwrite n block s) = block := by
  refine List.ext_getElem (by rw [extract, List.length_map, List.length_range, hblock]) ?_
  intro i hi hi'
  have hlt : i < 729 := by omega
  simp only [extract, List.getElem_map, List.getElem_range, Vector.getElem?_eq_getElem hlt,
    Option.getD_some]
  rw [getElem_overwrite hn _ _ hlt, if_pos (by omega), List.getD_eq_getElem _ _ hi']

/-- **A hash that is hashed again and again** without leaving the slices is that many hashes,
whatever was in the state that the loop begins with. -/
theorem ftroika243Repeated_eq (unset : FState) {input : List Digit} (hinput : input.length = 243)
    (times : ℕ) : ftroika243Repeated unset input times = (troika 243)^[times] input := by
  have hzero : ftroikaNullifyState unset = Vector.replicate 27 ⟨0, 0⟩ := by
    refine Vector.ext fun i hi => ?_
    rw [ftroikaNullifyState, ftroikaMask, Vector.getElem_map, Vector.getElem_replicate]
    exact congrArg₂ T27.mk BitVec.and_zero BitVec.and_zero
  have hstart := slices_zero.overwrite (by decide : 243 ≤ 729) input
  rw [ftroika243Repeated, hzero, (hstart.iterate times).extract (by decide), extract_iterate,
    extract_overwrite (by decide) hinput]

theorem ftroika243Repeated_eq_thrice :
    ftroika243Repeated (Vector.replicate 27 ⟨1, 1⟩) (List.replicate 243 2) 3 =
      (troika 243)^[3] (List.replicate 243 2) :=
  ftroika243Repeated_eq _ List.length_replicate 3

/-! ## The transformation of MAM -/

open Mam

/-- `state[i] += 1`. -/
def raise : Trit → Digit
  | .neg => 0
  | .zero => 1
  | .pos => 2

/-- `state[i] -= 1`. -/
def lower : Digit → Trit
  | 0 => .neg
  | 1 => .zero
  | 2 => .pos

/-- The state of a sponge of MAM as one of Troika. -/
def raised (state : List Trit) : State := Vector.ofFn fun i => raise (state.getD i .zero)

/-- `mam_troika_transform`, of a state of `MAM_SPONGE_WIDTH` trits. -/
def mamTroikaTransform (state : List Trit) : List Trit :=
  (troikaPermutation 24 (raised state)).toList.map lower

/-- `mam_ftroika_transform`, of a state of `MAM_SPONGE_WIDTH` trits; `fstate` is not set before. -/
def mamFtroikaTransform (unset : FState) (state : List Trit) : List Trit :=
  (fstateToState (ftroikaPermutation 24 (stateToFstate (raised state) unset))).toList.map lower

/-- The transformation of the plain implementation. -/
def mamTroika : Mam.Troika where
  transform := mamTroikaTransform
  length_transform _ _ := by simp [mamTroikaTransform, spongeWidth]

/-- The transformation of the sliced implementation, that `mam_sponge_transform` calls. -/
def mamFtroika (unset : FState) : Mam.Troika where
  transform := mamFtroikaTransform unset
  length_transform _ _ := by simp [mamFtroikaTransform, spongeWidth]

theorem cell_lt {slice lane : ℕ} (hslice : slice < 27) (hlane : lane < 27) :
    27 * slice + lane < 729 := by
  omega

/-- The first `n` trits have been set. -/
def SlicesTo (n : ℕ) (f : FState) (s : State) : Prop :=
  ∀ (slice lane : ℕ) (hslice : slice < 27) (hlane : lane < 27), 27 * slice + lane < n →
    (f.get ⟨lane, hlane⟩).Holds slice (s.get ⟨27 * slice + lane, cell_lt hslice hlane⟩)

theorem SlicesTo.set {n : ℕ} (h : SlicesTo n f s) (hn : n < 729) :
    SlicesTo (n + 1) (ftSet f (n % 27) (n / 27) s[n]) s := by
  intro slice lane hslice hlane hlt
  show (ftSet f (n % 27) (n / 27) s[n])[lane].Holds slice s[27 * slice + lane]
  rw [getElem_ftSet (Nat.mod_lt _ (by decide)) hlane]
  by_cases hr : n % 27 = lane
  · rw [if_pos hr]
    by_cases hz : n / 27 = slice
    · have hplace : 27 * slice + lane = n := by omega
      simp only [hplace, hz]
      exact T27.holds_set _ (by omega) _
    · subst hr
      exact T27.Holds.set (h slice (n % 27) hslice hlane (by omega)) hz (by omega)
  · rw [if_neg hr]
    exact h slice lane hslice hlane (by omega)

/-- What the words held before does not matter. -/
theorem slices_stateToFstate (s : State) (unset : FState) : Slices (stateToFstate s unset) s := by
  have hto : ∀ n ≤ 729, SlicesTo n ((List.range n).foldl (fun f i =>
      ftSet f (i % 27) (i / 27) (s[i]?.getD 0)) unset) s := by
    intro n hn
    induction n with
    | zero => exact fun _ _ _ _ h0 => absurd h0 (Nat.not_lt_zero _)
    | succ n ih =>
      have hset := (ih (Nat.le_of_succ_le hn)).set hn
      rw [List.range_succ, List.foldl_append, List.foldl_cons, List.foldl_nil,
        Vector.getElem?_eq_getElem hn, Option.getD_some]
      exact hset
  exact fun slice lane hslice hlane => hto 729 le_rfl slice lane hslice hlane (by omega)

theorem Slices.state (h : Slices f s) : fstateToState f = s := by
  refine Vector.ext fun i hi => ?_
  rw [fstateToState, Vector.getElem_ofFn]
  exact h.get hi

theorem mamFtroikaTransform_eq (unset : FState) :
    mamFtroikaTransform unset = mamTroikaTransform := by
  funext state
  have hslices : Slices (ftroikaPermutation 24 (stateToFstate (raised state) unset))
      (troikaPermutation 24 (raised state)) :=
    (slices_stateToFstate (raised state) unset).permutation (le_refl numRounds)
  rw [mamFtroikaTransform, mamTroikaTransform, hslices.state]

/-- **The sponge of MAM is the same with either**: the transformation through slices, whatever is in
the words it does not set, is the plain one. -/
theorem mamFtroika_eq (unset : FState) : mamFtroika unset = mamTroika := by
  simp only [mamFtroika, mamTroika, mamFtroikaTransform_eq]

theorem lower_injective : Function.Injective lower := by
  decide

theorem raise_injective : Function.Injective raise := by
  intro t t' h
  cases t <;> cases t' <;> first | rfl | exact absurd h (by decide)

/-- **No two states of a sponge of MAM are transformed to one.** -/
theorem mamFtroikaTransform_injective (unset : FState) {state state' : List Trit}
    (hlen : state.length = spongeWidth) (hlen' : state'.length = spongeWidth)
    (h : mamFtroikaTransform unset state = mamFtroikaTransform unset state') : state = state' := by
  rw [mamFtroikaTransform_eq] at h
  have hstates : raised state = raised state' :=
    troikaPermutation_injective 24
      (Vector.toList_inj.mp (List.map_injective_iff.mpr lower_injective h))
  refine List.ext_getElem (by rw [hlen, hlen']) fun i hi hi' => ?_
  have hi729 : i < 729 := by
    rw [hlen] at hi
    exact hi
  have hcell := congrArg (fun v : State => v[i]) hstates
  simp only [raised, Vector.getElem_ofFn, List.getD_eq_getElem _ _ hi,
    List.getD_eq_getElem _ _ hi'] at hcell
  exact raise_injective hcell

end Troika

end Entangled
