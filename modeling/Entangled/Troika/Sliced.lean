import Entangled.Troika.Plain
/-!
# Troika by slices

`ftroika.c` and `t27.h`. The 27 trits of a lane, one from every slice, are two words: a bit of `p`
is a trit 1, a bit of `n` a trit 2. What `troika.c` does trit by trit this one does for a whole
lane, the table as a sum of products of bits and the shift of a lane as a rotation of the words.

`Slices` is the relation between the two states. Every function keeps it, whatever stands in the
five bits of a word that are no trit: the table clears them before anything is rotated.
-/

namespace Entangled

namespace Troika

/-! ## The constants -/

/-- `fround_constants`, the words `p` and `n` of every lane. -/
def froundConstants : List (List (ℕ × ℕ)) := [
  [(119734530, 1610953), (5749794, 34095441), (8585540, 55080601), (37884008, 77409799),
    (54010117, 84576), (1516630, 113295913), (67149892, 28728632), (18946819, 46269656),
    (71707578, 53494784)],
  [(16777439, 103161856), (106015553, 10769436), (21266449, 11549090), (25182214, 106707976),
    (3511622, 21651481), (99250704, 98573), (86049024, 8946816), (115430790, 18522649),
    (34802142, 90448384)],
  [(52954114, 4518880), (42049594, 69225857), (64652, 119014242), (2361764, 79725587),
    (11788385, 71306002), (104925460, 18936387), (126091277, 7368848), (50448421, 76157720),
    (8389632, 69472985)],
  [(5267465, 119801412), (219376, 96215813), (69452824, 31209699), (2458688, 26900536),
    (9216196, 23217449), (9479304, 84560389), (14721540, 118622586), (18134123, 33751056),
    (17839280, 8454144)],
  [(50535754, 83100304), (77465099, 56709376), (3229283, 54835588), (111780009, 4473088),
    (78153311, 1384832), (2200712, 85617187), (3410924, 71341072), (75661345, 34434134),
    (56763059, 69011456)],
  [(111543554, 1650793), (16908812, 37251073), (104910882, 1517085), (26041368, 103842404),
    (48022528, 2229055), (54104125, 71320960), (35722818, 93087928), (84559900, 3190850),
    (27582482, 37816716)],
  [(68786250, 54928432), (3686682, 63278693), (70045, 100557312), (38150276, 94408058),
    (46798629, 2394242), (1202190, 8988112), (34308201, 94384916), (17518227, 3145772),
    (973329, 136)],
  [(56633740, 8765490), (68419770, 749061), (100942913, 23267584), (79923980, 51667986),
    (41853745, 25172098), (39327896, 75776000), (44671808, 68175902), (2245138, 13929772),
    (33650945, 79037966)],
  [(270473, 90363412), (72887432, 25346582), (100829319, 16593224), (40087630, 68684337),
    (6369457, 110496512), (4784407, 25472000), (33891012, 79219770), (53838530, 8936492),
    (68643936, 525057)],
  [(102302534, 16841864), (50364433, 75530210), (84025378, 41014464), (25225495, 102827176),
    (4194888, 1050917), (84026756, 39440496), (2102125, 76284930), (219, 101056512),
    (100738441, 5820436)],
  [(10228162, 67365944), (5235808, 8393488), (51989651, 2228780), (16847505, 76433508),
    (67651608, 33591874), (69017778, 35784448), (33587208, 76568885), (117440518, 4257472),
    (96273297, 154690)],
  [(124317824, 1508111), (34873472, 98616918), (111182400, 1330494), (69374511, 54871056),
    (27626369, 38929480), (37879972, 26052698), (71587392, 44040194), (14000288, 2101064),
    (35672064, 97980170)],
  [(81296, 47317509), (38469910, 25472072), (29738560, 36700214), (3267745, 117973262),
    (97993472, 528537), (84567940, 13731898), (77335148, 21041296), (51463726, 6724033),
    (1116193, 23601996)],
  [(80396928, 18153737), (117581700, 10059826), (21505356, 101124275), (23679023, 42993616),
    (103681057, 4268108), (72885098, 18914433), (97846858, 2627621), (8422144, 104538235),
    (83948099, 40176916)],
  [(6928902, 67256433), (67184746, 41588096), (69355878, 38529), (41473220, 67313922),
    (50647688, 4336995), (92288643, 248148), (12134919, 37884008), (35146408, 2601044),
    (9423489, 17835048)],
  [(68231686, 6477024), (57284529, 8398852), (69316740, 34996770), (33696260, 24642995),
    (46333986, 85212492), (54665779, 12422144), (47791116, 311458), (44671584, 72368411),
    (2773762, 29428924)],
  [(70976736, 62972703), (123864709, 10004498), (4202128, 11157861), (4859922, 61129797),
    (43331726, 69782577), (83935362, 49559848), (18875398, 1355904), (34433676, 78808178),
    (106038508, 27888147)],
  [(4627260, 33570944), (4538630, 121155721), (9245346, 117613917), (33571009, 29853970),
    (2392559, 43652096), (93343744, 37793194), (17309712, 36148998), (3276900, 118312456),
    (101315856, 5638796)],
  [(1587272, 132514822), (4229205, 77297034), (5767570, 84216428), (110247047, 21528952),
    (125878920, 7743841), (42033186, 73801480), (8388866, 2699881), (127159080, 2240724),
    (17324188, 112468544)],
  [(34341913, 91345154), (105251840, 2623560), (4798982, 10634481), (39389184, 84174433),
    (88113152, 8667000), (34284722, 329), (39360568, 67200132), (6844996, 58720546),
    (104799233, 29368426)],
  [(51429916, 80362691), (88855204, 262411), (8655522, 71558228), (17838342, 11076784),
    (92751916, 1577424), (33559104, 8931338), (1055746, 99418513), (85018341, 39885072),
    (63800, 120587968)],
  [(5517104, 84070467), (118067364, 5522242), (39922643, 68435980), (73796250, 35144996),
    (2528811, 37838868), (37880008, 17144593), (21317458, 112754688), (113268098, 20677181),
    (2597136, 47730886)],
  [(68438280, 50397942), (59853500, 68030786), (1475096, 41965991), (85852370, 37775145),
    (1071361, 44113962), (68040205, 62931234), (5847109, 78005290), (34465024, 12720668),
    (71860611, 44513824)],
  [(109057155, 3197812), (2396909, 16843778), (67383952, 31605828), (70387369, 37875732),
    (119275955, 28228), (34079753, 73679286), (50603056, 71422530), (10385546, 86017108),
    (227426, 12060561)]]

/-- `shifts` of `ftroika_shift_rows`. -/
def shifts : List ℕ :=
  [0, 1, 2, 3, 4, 5, 6, 7, 8, 12, 13, 14, 15, 16, 17, 9, 10, 11, 24, 25, 26, 18, 19, 20, 21, 22, 23]

/-! ## A lane -/

/-- `t27_t`. -/
@[ext]
structure T27 where
  p : BitVec 32
  n : BitVec 32

namespace T27

/-- `_1`. -/
def one (a : T27) : BitVec 32 := a.p

/-- `_2`. -/
def two (a : T27) : BitVec 32 := a.n

/-- `_0`. -/
def zero (a : T27) : BitVec 32 := ~~~a.p &&& ~~~a.n

/-- `t27_clean`. -/
def clean (a : T27) : T27 := ⟨a.p &&& 0x07ffffff#32, a.n &&& 0x07ffffff#32⟩

/-- `t27_sum`. -/
def sum (a b : T27) : T27 :=
  ⟨a.one &&& b.zero ||| a.zero &&& b.one ||| a.two &&& b.two,
    a.two &&& b.zero ||| a.zero &&& b.two ||| a.one &&& b.one⟩

/-- A word of `t27_roll`. -/
def rollWord (x : BitVec 32) (n : ℕ) : BitVec 32 := (x <<< n ||| x >>> (27 - n)) &&& 0x07ffffff#32

/-- `t27_roll`. -/
def roll (a : T27) (n : ℕ) : T27 := ⟨rollWord a.p n, rollWord a.n n⟩

/-- `t27_get`. -/
def get (a : T27) (pos : ℕ) : Digit :=
  let mask := 1#32 <<< pos
  if a.p &&& mask ≠ 0 then 1 else if a.n &&& mask ≠ 0 then 2 else 0

/-- `t27_set`, of a value that is a trit. -/
def set (a : T27) (pos : ℕ) (val : Digit) : T27 :=
  let mask := 1#32 <<< pos
  let cleared : T27 := ⟨a.p &&& ~~~mask, a.n &&& ~~~mask⟩
  if val = 1 then { cleared with p := cleared.p ||| mask }
  else if val = 2 then { cleared with n := cleared.n ||| mask }
  else cleared

end T27

/-- The lanes `COLUMNS * row + col`. -/
abbrev FState := Vector T27 27

/-! ## A round -/

/-- `ftroika_sub_tryte`, with the products `ZERO` to `Z` of the source. -/
def ftroikaSubTryte (a b c : T27) : T27 × T27 × T27 :=
  let ZERO := a.zero &&& b.zero &&& c.zero
  let A := a.one &&& b.zero &&& c.zero
  let B := a.two &&& b.zero &&& c.zero
  let C := a.zero &&& b.one &&& c.zero
  let D := a.one &&& b.one &&& c.zero
  let E := a.two &&& b.one &&& c.zero
  let F := a.zero &&& b.two &&& c.zero
  let G := a.one &&& b.two &&& c.zero
  let H := a.two &&& b.two &&& c.zero
  let J := a.one &&& b.zero &&& c.one
  let K := a.two &&& b.zero &&& c.one
  let L := a.zero &&& b.one &&& c.one
  let M := a.one &&& b.one &&& c.one
  let N := a.two &&& b.one &&& c.one
  let O := a.zero &&& b.two &&& c.one
  let P := a.one &&& b.two &&& c.one
  let Q := a.two &&& b.two &&& c.one
  let R := a.zero &&& b.zero &&& c.two
  let S := a.one &&& b.zero &&& c.two
  let T := a.two &&& b.zero &&& c.two
  let U := a.zero &&& b.one &&& c.two
  let V := a.one &&& b.one &&& c.two
  let W := a.two &&& b.one &&& c.two
  let X := a.zero &&& b.two &&& c.two
  let Y := a.one &&& b.two &&& c.two
  let Z := a.two &&& b.two &&& c.two
  let x0 : T27 :=
    ⟨A ||| E ||| F ||| J ||| M ||| P ||| S ||| U ||| Z,
      B ||| C ||| G ||| K ||| N ||| Q ||| T ||| V ||| X⟩
  let x1 : T27 :=
    ⟨C ||| F ||| M ||| Q ||| R ||| S ||| T ||| W ||| Y,
      ZERO ||| A ||| B ||| D ||| H ||| N ||| P ||| U ||| X⟩
  let x2 : T27 :=
    ⟨B ||| D ||| E ||| L ||| P ||| Q ||| S ||| V ||| W,
      A ||| G ||| H ||| M ||| N ||| O ||| T ||| Y ||| Z⟩
  (x0.clean, x1.clean, x2.clean)

/-- `ftroika_sub_trytes`: the lane `j` of three. -/
def ftroikaSubTrytes (f : FState) : FState :=
  Vector.ofFn fun r =>
    let (a, b, c) :=
      ftroikaSubTryte f[3 * (r.val / 3) + 2] f[3 * (r.val / 3) + 1] f[3 * (r.val / 3)]
    trit3 c b a (r.val % 3)

/-- An entry of `shifts`. -/
def shiftIndex (r : Fin 27) : Fin 27 := ⟨shifts.getD r 0 % 27, Nat.mod_lt _ (by decide)⟩

/-- `ftroika_shift_rows`: `new_state` is set, and copied, from lane 9 on. -/
def ftroikaShiftRows (f : FState) : FState :=
  let newState := scatter shiftIndex f ((List.finRange 27).drop 9) (Vector.replicate 27 ⟨0, 0⟩)
  Vector.ofFn fun r => if r.val < 9 then f[r] else newState[r]

/-- `ftroika_shift_lanes`. -/
def ftroikaShiftLanes (f : FState) : FState :=
  Vector.ofFn fun r => f[r].roll (shiftLanesParam.getD r 0)

/-- The array `parity` of `ftroika_add_column_parity`. -/
def ftroikaParity (f : FState) (col : Fin 9) : T27 :=
  ((T27.sum ⟨0, 0⟩ f[col.val]).sum f[9 + col.val]).sum f[18 + col.val]

/-- `ftroika_add_column_parity`. -/
def ftroikaAddColumnParity (f : FState) : FState :=
  Vector.ofFn fun r =>
    let col := r.val % 9
    let t1 := ftroikaParity f (if col = 0 then 8 else ⟨col - 1, by omega⟩)
    let t2 := (ftroikaParity f (if h : col = 8 then 0 else ⟨col + 1, by omega⟩)).roll 26
    f[r].sum (t1.sum t2)

/-- An entry of `fround_constants`. -/
def froundConstant (round col : ℕ) : T27 :=
  let words := (froundConstants.getD round []).getD col (0, 0)
  ⟨BitVec.ofNat 32 words.1, BitVec.ofNat 32 words.2⟩

/-- `ftroika_add_round_constant`. -/
def ftroikaAddRoundConstant (f : FState) (round : ℕ) : FState :=
  Vector.ofFn fun r => if r.val < 9 then f[r].sum (froundConstant round r) else f[r]

/-- The body of the loop of `ftroika_permutation`. -/
def ftroikaRound (f : FState) (round : ℕ) : FState :=
  ftroikaAddRoundConstant
    (ftroikaAddColumnParity (ftroikaShiftLanes (ftroikaShiftRows (ftroikaSubTrytes f)))) round

/-- `ftroika_permutation`. -/
def ftroikaPermutation (numRounds : ℕ) (f : FState) : FState :=
  (List.range numRounds).foldl ftroikaRound f

/-! ## The sponge -/

/-- `ft_set`. -/
def ftSet (f : FState) (rowcol slice : ℕ) (val : Digit) : FState :=
  if h : rowcol < 27 then f.set rowcol (f[rowcol].set slice val) else f

/-- `ft_get`. -/
def ftGet (f : FState) (rowcol slice : ℕ) : Digit :=
  if h : rowcol < 27 then f[rowcol].get slice else 0

/-- The counters `rowcol` and `slice` at the head of a loop. -/
def wrap (rowcol slice : ℕ) : ℕ × ℕ := if rowcol = 27 then (0, slice + 1) else (rowcol, slice)

/-- `ftroika_trits_to_rate`, and the loops of `ftroika_absorb` that do the same. -/
def ftroikaTritsToRate (f : FState) (trits : List Digit) (len : ℕ) : FState :=
  ((List.range len).foldl (fun (c : FState × ℕ × ℕ) i =>
    let (rowcol, slice) := wrap c.2.1 c.2.2
    (ftSet c.1 rowcol slice (trits.getD i 0), rowcol + 1, slice)) (f, 0, 0)).1

/-- `ftroika_rate_to_trits`, and the loops of `ftroika_squeeze` that do the same. -/
def ftroikaRateToTrits (f : FState) (len : ℕ) : List Digit :=
  ((List.range len).foldl (fun (c : List Digit × ℕ × ℕ) _ =>
    let (rowcol, slice) := wrap c.2.1 c.2.2
    (c.1 ++ [ftGet f rowcol slice], rowcol + 1, slice)) ([], 0, 0)).1

/-- `ftroika_absorb`, for a rate that is not 0. -/
def ftroikaAbsorb (rate numRounds : ℕ) (f : FState) (message : List Digit) : FState :=
  if _h : 0 < rate ∧ rate ≤ message.length then
    ftroikaAbsorb rate numRounds (ftroikaPermutation numRounds (ftroikaTritsToRate f message rate))
      (message.drop rate)
  else ftroikaTritsToRate f (lastBlock rate message) rate
termination_by message.length
decreasing_by
  rw [List.length_drop]
  omega

/-- `ftroika_squeeze`, for a rate that is not 0: the output and the state. -/
def ftroikaSqueeze (rate numRounds hashLength : ℕ) (f : FState) : List Digit × FState :=
  if _h : 0 < rate ∧ rate ≤ hashLength then
    let f' := ftroikaPermutation numRounds f
    let (out, last) := ftroikaSqueeze rate numRounds (hashLength - rate) f'
    (ftroikaRateToTrits f' rate ++ out, last)
  else if 0 < hashLength then
    let f' := ftroikaPermutation numRounds f
    (ftroikaRateToTrits f' hashLength, f')
  else ([], f)
termination_by hashLength

/-- `ftroika_var_rounds`. -/
def ftroikaVarRounds (rounds outLen : ℕ) (input : List Digit) : List Digit :=
  (ftroikaSqueeze troikaRate rounds outLen
    (ftroikaAbsorb troikaRate rounds (Vector.replicate 27 ⟨0, 0⟩) input)).1

/-- `ftroika`. -/
def ftroika (outLen : ℕ) (input : List Digit) : List Digit :=
  ftroikaVarRounds numRounds outLen input

/-- The words of every lane under a mask. -/
def ftroikaMask (mask : BitVec 32) (f : FState) : FState :=
  f.map fun a => ⟨a.p &&& mask, a.n &&& mask⟩

/-- `ftroika_nullify_state`. -/
def ftroikaNullifyState (f : FState) : FState := ftroikaMask 0 f

/-- `ftroika_nullify_rate`. -/
def ftroikaNullifyRate (f : FState) : FState := ftroikaMask 0x07fffe00#32 f

/-- `ftroika_nullify_capacity`. -/
def ftroikaNullifyCapacity (f : FState) : FState := ftroikaMask 0x000001ff#32 f

/-- The body of the loop of `ftroika243_repeated`. -/
def ftroika243Step (f : FState) : FState :=
  let f := ftroikaPermutation 24 (ftroikaNullifyCapacity f)
  ftroikaPermutation 24 (ftSet (ftroikaNullifyRate f) 0 0 1)

/-- `ftroika243_repeated`; the state is not set before it is cleared. -/
def ftroika243Repeated (unset : FState) (input : List Digit) (times : ℕ) : List Digit :=
  ftroikaRateToTrits
    (ftroika243Step^[times] (ftroikaTritsToRate (ftroikaNullifyState unset) input 243)) 243

/-- `state_to_fstate`. -/
def stateToFstate (s : State) (f : FState) : FState :=
  (List.range 729).foldl (fun f i => ftSet f (i % 27) (i / 27) (s[i]?.getD 0)) f

/-- `fstate_to_state`. -/
def fstateToState (f : FState) : State := Vector.ofFn fun i => ftGet f (i.val % 27) (i.val / 27)

/-! ## Bits and trits -/

namespace T27

/-- At the place `i` of the lane is the trit `d`. -/
structure Holds (a : T27) (i : ℕ) (d : Digit) : Prop where
  p : a.p.getLsbD i = decide (d = 1)
  n : a.n.getLsbD i = decide (d = 2)

/-- Nothing but trits is in the words. -/
structure Clean (a : T27) : Prop where
  p : ∀ i, 27 ≤ i → a.p.getLsbD i = false
  n : ∀ i, 27 ≤ i → a.n.getLsbD i = false

variable {a b c : T27} {i : ℕ} {d e : Digit}

theorem getLsbD_mask (i : ℕ) : (0x07ffffff#32).getLsbD i = decide (i < 27) := by
  by_cases hi : i < 32
  · have hbits : ∀ k : Fin 32, (0x07ffffff#32).getLsbD k = decide (k.val < 27) := by decide
    exact hbits ⟨i, hi⟩
  · rw [BitVec.getLsbD_of_ge _ _ (by omega)]
    exact (decide_eq_false (by omega)).symm

theorem getLsbD_one_shiftLeft (pos i : ℕ) :
    (1#32 <<< pos).getLsbD i = (decide (pos < 32) && decide (pos = i)) :=
  BitVec.getLsbD_twoPow pos i

theorem and_one_shiftLeft_ne_zero {x : BitVec 32} (hi : i < 32) :
    x &&& 1#32 <<< i ≠ 0 ↔ x.getLsbD i = true := by
  have hand := BitVec.and_twoPow x i
  have hpow : BitVec.twoPow 32 i ≠ 0#32 := fun h => by
    have hbit := congrArg (fun y : BitVec 32 => y.getLsbD i) h
    simp [hi] at hbit
  change x &&& BitVec.twoPow 32 i ≠ 0#32 ↔ _
  rw [hand]
  split <;> simp_all

theorem Holds.get (h : a.Holds i d) (hi : i < 32) : a.get i = d := by
  unfold T27.get
  simp only [and_one_shiftLeft_ne_zero hi, h.p, h.n, decide_eq_true_eq]
  clear h
  revert d
  decide

/-- A trit that was set. -/
theorem holds_set (a : T27) (hi : i < 32) (d : Digit) : (a.set i d).Holds i d := by
  constructor <;> unfold T27.set <;> dsimp only <;> split_ifs <;> simp_all

/-- The other trits stay. -/
theorem Holds.set (h : a.Holds i d) {pos : ℕ} (hne : pos ≠ i) (hi : i < 32) :
    (a.set pos e).Holds i d := by
  have hmask : (1#32 <<< pos).getLsbD i = false := by
    rw [getLsbD_one_shiftLeft, decide_eq_false hne, Bool.and_false]
  constructor <;> unfold T27.set <;> dsimp only <;> split_ifs <;>
    simp only [BitVec.getLsbD_or, BitVec.getLsbD_and, BitVec.getLsbD_not, hmask, hi, h.p, h.n,
      decide_true, Bool.not_false, Bool.and_true, Bool.or_false]

theorem Holds.clean (h : a.Holds i d) (hi : i < 27) : a.clean.Holds i d := by
  constructor
  · simp only [T27.clean, BitVec.getLsbD_and, getLsbD_mask, hi, h.p, decide_true, Bool.and_true]
  · simp only [T27.clean, BitVec.getLsbD_and, getLsbD_mask, hi, h.n, decide_true, Bool.and_true]

theorem getLsbD_and_mask (x : BitVec 32) (hi : 27 ≤ i) :
    (x &&& 0x07ffffff#32).getLsbD i = false := by
  rw [BitVec.getLsbD_and, getLsbD_mask, decide_eq_false (by omega), Bool.and_false]

theorem clean_clean (a : T27) : a.clean.Clean :=
  ⟨fun _ hi => getLsbD_and_mask _ hi, fun _ hi => getLsbD_and_mask _ hi⟩

theorem clean_roll (a : T27) (k : ℕ) : (a.roll k).Clean :=
  ⟨fun _ hi => getLsbD_and_mask _ hi, fun _ hi => getLsbD_and_mask _ hi⟩

/-- **The sum modulo 3**, place by place. -/
theorem Holds.sum (ha : a.Holds i d) (hb : b.Holds i e) (hi : i < 32) :
    (a.sum b).Holds i (digit (d + e)) := by
  constructor <;>
    simp only [T27.sum, one, two, zero, BitVec.getLsbD_or, BitVec.getLsbD_and, BitVec.getLsbD_not,
      ha.p, ha.n, hb.p, hb.n, hi, decide_true, Bool.true_and] <;>
    clear ha hb <;> revert d e <;> decide

theorem getLsbD_rollWord {x : BitVec 32} (hx : ∀ i, 27 ≤ i → x.getLsbD i = false) {k : ℕ}
    (hk : k < 27) (hi : i < 27) : (rollWord x k).getLsbD i = x.getLsbD ((i + 27 - k) % 27) := by
  simp only [rollWord, BitVec.getLsbD_and, BitVec.getLsbD_or, BitVec.getLsbD_shiftLeft,
    BitVec.getLsbD_ushiftRight, getLsbD_mask, hi, decide_true, Bool.and_true]
  by_cases hik : i < k
  · have hplace : (i + 27 - k) % 27 = 27 - k + i := by omega
    rw [hplace, decide_eq_true hik, Bool.not_true, Bool.and_false, Bool.false_and, Bool.false_or]
  · have hplace : (i + 27 - k) % 27 = i - k := by omega
    rw [hplace, hx (27 - k + i) (by omega), decide_eq_false hik, decide_eq_true (by omega : i < 32)]
    simp only [Bool.not_false, Bool.true_and, Bool.or_false]

/-- **The rotation**: a trit comes from `k` places below. -/
theorem Holds.roll {k : ℕ} (ha : a.Clean) (h : a.Holds ((i + 27 - k) % 27) d) (hk : k < 27)
    (hi : i < 27) : (a.roll k).Holds i d := by
  constructor
  · exact (getLsbD_rollWord ha.p hk hi).trans h.p
  · exact (getLsbD_rollWord ha.n hk hi).trans h.n

end T27

/-- **The table**, as sums of products of bits. -/
theorem holds_ftroikaSubTryte {a b c : T27} {i : ℕ} {x y z : Digit} (ha : a.Holds i x)
    (hb : b.Holds i y) (hc : c.Holds i z) (hi : i < 27) :
    (ftroikaSubTryte a b c).1.Holds i (subTryte z y x 2) ∧
      (ftroikaSubTryte a b c).2.1.Holds i (subTryte z y x 1) ∧
      (ftroikaSubTryte a b c).2.2.Holds i (subTryte z y x 0) := by
  refine ⟨T27.Holds.clean ?_ hi, T27.Holds.clean ?_ hi, T27.Holds.clean ?_ hi⟩ <;> constructor <;>
    simp only [T27.one, T27.two, T27.zero, BitVec.getLsbD_or, BitVec.getLsbD_and,
      BitVec.getLsbD_not, ha.p, ha.n, hb.p, hb.n, hc.p, hc.n, (by omega : i < 32), decide_true,
      Bool.true_and] <;>
    clear ha hb hc hi <;> revert x y z <;> decide

/-! ## The two states -/

/-- The sliced state `f` stands for the state `s`. -/
def Slices (f : FState) (s : State) : Prop :=
  ∀ (slice lane : ℕ) (_ : slice < 27) (_ : lane < 27), f[lane].Holds slice s[27 * slice + lane]

/-- Every lane of the state is nothing but trits. -/
def Trimmed (f : FState) : Prop := ∀ (lane : ℕ) (_ : lane < 27), f[lane].Clean

variable {f : FState} {s : State}

/-- The table keeps the relation. -/
theorem Slices.subTrytes (h : Slices f s) : Slices (ftroikaSubTrytes f) (subTrytes s) := by
  intro slice lane hslice hlane
  have h0 := h slice (3 * (lane / 3)) hslice (by omega)
  have h1 := h slice (3 * (lane / 3) + 1) hslice (by omega)
  have h2 := h slice (3 * (lane / 3) + 2) hslice (by omega)
  have hbox : 3 * ((27 * slice + lane) / 3) = 27 * slice + 3 * (lane / 3) := by omega
  have hmod : (27 * slice + lane) % 3 = lane % 3 := by omega
  obtain ⟨ha, hb, hc⟩ := holds_ftroikaSubTryte h2 h1 h0 hslice
  simp only [ftroikaSubTrytes, Troika.subTrytes, Vector.getElem_ofFn, hbox, hmod]
  have hj : lane % 3 = 0 ∨ lane % 3 = 1 ∨ lane % 3 = 2 := by omega
  rcases hj with hj | hj | hj <;> rw [hj]
  · exact hc
  · exact hb
  · exact ha

/-- The table clears what is no trit. -/
theorem trimmed_subTrytes (f : FState) : Trimmed (ftroikaSubTrytes f) := by
  intro lane hlane
  simp only [ftroikaSubTrytes, Vector.getElem_ofFn]
  unfold trit3
  split
  · exact T27.clean_clean _
  · exact T27.clean_clean _
  · exact T27.clean_clean _

theorem shiftIndex_injective : Function.Injective shiftIndex := by
  decide

/-- The lane that goes to a lane, by the table and by the formula for the rows. -/
theorem exists_shiftIndex (lane : Fin 27) : ∃ origin : Fin 27, shiftIndex origin = lane ∧
    lane.val = 9 * (origin.val / 9) + (origin.val % 9 + 3 * (origin.val / 9)) % 9 ∧
    (lane.val < 9 → origin = lane) ∧ (¬ lane.val < 9 → origin ∈ (List.finRange 27).drop 9) := by
  decide +revert

/-- A lane of the rows is moved as a whole. -/
theorem getElem_ftroikaShiftRows (f : FState) {origin lane : Fin 27}
    (hshift : shiftIndex origin = lane) (hlow : lane.val < 9 → origin = lane)
    (hhigh : ¬ lane.val < 9 → origin ∈ (List.finRange 27).drop 9) :
    (ftroikaShiftRows f)[lane.val] = f[origin.val] := by
  simp only [ftroikaShiftRows, Vector.getElem_ofFn]
  split
  · next hlt => simp only [hlow hlt, Fin.getElem_fin]
  · next hlt =>
    subst hshift
    exact getElem_scatter shiftIndex_injective (hhigh hlt)

/-- The shift of the rows keeps the relation. -/
theorem Slices.shiftRows (h : Slices f s) : Slices (ftroikaShiftRows f) (shiftRows s) := by
  intro slice lane hslice hlane
  obtain ⟨origin, hshift, hlane', hlow, hhigh⟩ := exists_shiftIndex ⟨lane, hlane⟩
  have hplace : rowIndex ⟨27 * slice + origin.val, by omega⟩ = ⟨27 * slice + lane, by omega⟩ := by
    ext
    rw [rowIndex_val]
    dsimp only at hlane' ⊢
    omega
  have hcell := getElem_shiftRows s hplace
  have hmoved := getElem_ftroikaShiftRows f hshift hlow hhigh
  have hheld := h slice origin.val hslice origin.isLt
  dsimp only at hcell hmoved
  rw [hcell, hmoved]
  exact hheld

theorem Trimmed.shiftRows (h : Trimmed f) : Trimmed (ftroikaShiftRows f) := by
  intro lane hlane
  obtain ⟨origin, hshift, -, hlow, hhigh⟩ := exists_shiftIndex ⟨lane, hlane⟩
  have hmoved := getElem_ftroikaShiftRows f hshift hlow hhigh
  dsimp only at hmoved
  rw [hmoved]
  exact h origin.val origin.isLt

/-- The shift of the lanes is a rotation of each. -/
theorem Slices.shiftLanes (h : Slices f s) (htrim : Trimmed f) :
    Slices (ftroikaShiftLanes f) (shiftLanes s) := by
  intro slice lane hslice hlane
  have hshift := shiftLanesParam_lt ⟨lane, hlane⟩
  dsimp only at hshift
  obtain ⟨k, hk⟩ : ∃ k, shiftLanesParam.getD lane 0 = k := ⟨_, rfl⟩
  rw [hk] at hshift
  have hplace : laneIndex ⟨27 * ((slice + 27 - k) % 27) + lane, by omega⟩ =
      ⟨27 * slice + lane, by omega⟩ := by
    have hmod : (27 * ((slice + 27 - k) % 27) + lane) % 27 = lane := by omega
    ext
    simp only [laneIndex, hmod, hk]
    omega
  have hcell := getElem_shiftLanes s hplace
  dsimp only at hcell
  have hheld := h ((slice + 27 - k) % 27) lane (Nat.mod_lt _ (by decide)) hlane
  rw [hcell]
  simp only [ftroikaShiftLanes, Vector.getElem_ofFn, hk, Fin.getElem_fin]
  exact T27.Holds.roll (htrim lane hlane) hheld hshift hslice

theorem trimmed_shiftLanes (f : FState) : Trimmed (ftroikaShiftLanes f) := by
  intro lane hlane
  simp only [ftroikaShiftLanes, Vector.getElem_ofFn]
  exact T27.clean_roll _ _

namespace T27

theorem holds_zero (i : ℕ) : (⟨0, 0⟩ : T27).Holds i 0 := by
  constructor
  · exact BitVec.getLsbD_zero
  · exact BitVec.getLsbD_zero

theorem Clean.sum {a b : T27} (ha : a.Clean) (hb : b.Clean) : (a.sum b).Clean := by
  constructor
  · intro i hi
    simp only [T27.sum, one, two, BitVec.getLsbD_or, BitVec.getLsbD_and, ha.p i hi, hb.p i hi,
      ha.n i hi, Bool.false_and, Bool.and_false, Bool.or_false]
  · intro i hi
    simp only [T27.sum, one, two, BitVec.getLsbD_or, BitVec.getLsbD_and, ha.p i hi, hb.n i hi,
      ha.n i hi, Bool.false_and, Bool.and_false, Bool.or_false]

theorem clean_zero : (⟨0, 0⟩ : T27).Clean :=
  ⟨fun _ _ => BitVec.getLsbD_zero, fun _ _ => BitVec.getLsbD_zero⟩

end T27

theorem Slices.holds_parity (h : Slices f s) (slice : Fin 27) (col : Fin 9) :
    (ftroikaParity f col).Holds slice (parity s slice col) := by
  have h0 := h slice col slice.isLt (by omega)
  have h1 := h slice (9 + col) slice.isLt (by omega)
  have h2 := h slice (18 + col) slice.isLt (by omega)
  have hsum := T27.Holds.sum (T27.Holds.sum (T27.Holds.sum (T27.holds_zero slice) h0 (by omega)) h1
    (by omega)) h2 (by omega)
  have hdigit : parity s slice col =
      digit (digit (digit ((0 : Digit) + s[27 * slice.val + col.val]) +
      s[27 * slice.val + (9 + col.val)]) + s[27 * slice.val + (18 + col.val)]) := by
    ext
    simp only [parity, digit, ← Nat.add_assoc]
    omega
  rw [hdigit]
  exact hsum

theorem Trimmed.clean_parity (h : Trimmed f) (col : Fin 9) : (ftroikaParity f col).Clean :=
  ((T27.clean_zero.sum (h col (by omega))).sum (h (9 + col) (by omega))).sum
    (h (18 + col) (by omega))

/-- Adding the parities keeps the relation. -/
theorem Slices.addColumnParity (h : Slices f s) (htrim : Trimmed f) :
    Slices (ftroikaAddColumnParity f) (addColumnParity s) := by
  intro slice lane hslice hlane
  have hdiv : (27 * slice + lane) / 27 = slice := by omega
  have hmod : (27 * slice + lane) % 9 = lane % 9 := by omega
  have hbefore : (if lane % 9 = 0 then 8 else ⟨lane % 9 - 1, by omega⟩ : Fin 9) =
      ⟨(lane % 9 + 8) % 9, Nat.mod_lt _ (by decide)⟩ := by
    ext
    split
    · next h0 => simp only [h0]; rfl
    · dsimp only; omega
  have hbehind : (if _ : lane % 9 = 8 then 0 else ⟨lane % 9 + 1, by omega⟩ : Fin 9) =
      ⟨(lane % 9 + 1) % 9, Nat.mod_lt _ (by decide)⟩ := by
    ext
    split
    · next h8 => simp only [h8]; rfl
    · dsimp only; omega
  have hplace : (slice + 27 - 26) % 27 = (slice + 1) % 27 := by omega
  have ht1 := h.holds_parity ⟨slice, hslice⟩ ⟨(lane % 9 + 8) % 9, Nat.mod_lt _ (by decide)⟩
  have ht2 := h.holds_parity ⟨(slice + 27 - 26) % 27, Nat.mod_lt _ (by decide)⟩
    ⟨(lane % 9 + 1) % 9, Nat.mod_lt _ (by decide)⟩
  dsimp only at ht1 ht2
  have hroll := T27.Holds.roll (htrim.clean_parity _) ht2 (by decide) hslice
  have hsum := T27.Holds.sum (h slice lane hslice hlane)
    (T27.Holds.sum ht1 hroll (by omega)) (by omega)
  simp only [ftroikaAddColumnParity, Troika.addColumnParity, Vector.getElem_ofFn, hdiv, hmod,
    hbefore, hbehind, Fin.getElem_fin]
  refine (congrArg (T27.Holds _ slice) ?_).mp hsum
  ext
  simp only [digit, sumToAdd, hplace]
  omega

/-! ## The constants of both -/

/-- The words of a round and its trits, from a slice on. -/
def wordsAgree (words : List (ℕ × ℕ)) : ℕ → ℕ → List ℕ → Bool
  | 0, _, _ => true
  | left + 1, slice, trits =>
    ((words.zip trits).all fun (w, t) =>
      Nat.beq t (w.1 / 2 ^ slice % 2 + 2 * (w.2 / 2 ^ slice % 2)) && Nat.ble t 2) &&
    wordsAgree words left (slice + 1) (trits.drop 9)

theorem wordsAgree_froundConstants :
    (froundConstants.zip roundConstants).all (fun (w, t) => wordsAgree w 27 0 t) = true := by
  decide +kernel

theorem of_wordsAgree {words : List (ℕ × ℕ)} {left slice k col : ℕ} {trits : List ℕ} {w : ℕ × ℕ}
    {t : ℕ} (h : wordsAgree words left slice trits = true) (hk : k < left)
    (hw : words[col]? = some w) (ht : trits[9 * k + col]? = some t) :
    t = w.1 / 2 ^ (slice + k) % 2 + 2 * (w.2 / 2 ^ (slice + k) % 2) ∧ t ≤ 2 := by
  induction left generalizing slice trits k with
  | zero => exact absurd hk (Nat.not_lt_zero k)
  | succ left ih =>
    rw [wordsAgree, Bool.and_eq_true, List.all_eq_true] at h
    cases k with
    | zero =>
      have hzip : (words.zip trits)[col]? = some (w, t) :=
        List.getElem?_zip_eq_some.mpr ⟨hw, by simpa using ht⟩
      have hhere := h.1 _ (List.mem_of_getElem? hzip)
      rw [Bool.and_eq_true] at hhere
      exact ⟨Nat.eq_of_beq_eq_true hhere.1, Nat.le_of_ble_eq_true hhere.2⟩
    | succ k =>
      have hdrop : (trits.drop 9)[9 * k + col]? = some t := by
        rw [List.getElem?_drop, ← ht]
        congr 1
        omega
      have hrest := ih h.2 (by omega) hdrop
      have hslice : slice + (k + 1) = slice + 1 + k := by omega
      rwa [hslice]

theorem length_of_mem_constants : (∀ words ∈ froundConstants, words.length = 9) ∧
    ∀ trits ∈ roundConstants, trits.length = 243 := by
  decide +kernel

/-- **The constants are the same**, slice by slice. -/
theorem holds_froundConstant {round col slice : ℕ} (hround : round < 24) (hcol : col < 9)
    (hslice : slice < 27) :
    (froundConstant round col).Holds slice
      (digit ((roundConstants.getD round []).getD (9 * slice + col) 0)) := by
  have hwords : froundConstants[round]? = some froundConstants[round] := List.getElem?_eq_getElem _
  have htrits : roundConstants[round]? = some roundConstants[round] := List.getElem?_eq_getElem _
  have hzip : (froundConstants.zip roundConstants)[round]? =
      some (froundConstants[round], roundConstants[round]) :=
    List.getElem?_zip_eq_some.mpr ⟨hwords, htrits⟩
  have hagree := List.all_eq_true.mp wordsAgree_froundConstants _ (List.mem_of_getElem? hzip)
  have hlen9 := length_of_mem_constants.1 _ (List.mem_of_getElem? hwords)
  have hlen243 := length_of_mem_constants.2 _ (List.mem_of_getElem? htrits)
  have hw : froundConstants[round][col]? = some froundConstants[round][col] :=
    List.getElem?_eq_getElem _
  have ht : roundConstants[round][9 * slice + col]? = some roundConstants[round][9 * slice + col] :=
    List.getElem?_eq_getElem _
  obtain ⟨hvalue, hle⟩ := of_wordsAgree hagree hslice hw ht
  rw [Nat.zero_add] at hvalue
  have hword : froundConstant round col = ⟨BitVec.ofNat 32 (froundConstants[round][col]).1,
      BitVec.ofNat 32 (froundConstants[round][col]).2⟩ := by
    simp only [froundConstant, List.getD_eq_getElem?_getD, hwords, Option.getD_some, hw]
  have htrit : (roundConstants.getD round []).getD (9 * slice + col) 0 =
      roundConstants[round][9 * slice + col] := by
    simp only [List.getD_eq_getElem?_getD, htrits, Option.getD_some, ht]
  rw [hword, htrit]
  have hbit1 := Nat.mod_two_eq_zero_or_one ((froundConstants[round][col]).1 / 2 ^ slice)
  have hbit2 := Nat.mod_two_eq_zero_or_one ((froundConstants[round][col]).2 / 2 ^ slice)
  constructor
  · rw [BitVec.getLsbD_ofNat, Nat.testBit_eq_decide_div_mod_eq,
      decide_eq_true (by omega : slice < 32), Bool.true_and, decide_eq_decide, Fin.ext_iff]
    simp only [digit, Fin.val_one]
    omega
  · rw [BitVec.getLsbD_ofNat, Nat.testBit_eq_decide_div_mod_eq,
      decide_eq_true (by omega : slice < 32), Bool.true_and, decide_eq_decide, Fin.ext_iff]
    simp only [digit, Fin.val_two]
    omega

/-- Adding the constants keeps the relation. -/
theorem Slices.addRoundConstant (h : Slices f s) {round : ℕ} (hround : round < 24) :
    Slices (ftroikaAddRoundConstant f round) (addRoundConstant s round) := by
  intro slice lane hslice hlane
  have hdiv : (27 * slice + lane) / 27 = slice := by omega
  have hmod : (27 * slice + lane) % 27 = lane := by omega
  simp only [ftroikaAddRoundConstant, Troika.addRoundConstant, Vector.getElem_ofFn, hdiv, hmod,
    Fin.getElem_fin]
  split
  · next hcol =>
    have hsum := T27.Holds.sum (h slice lane hslice hlane)
      (holds_froundConstant hround hcol hslice) (by omega)
    refine (congrArg (T27.Holds _ slice) ?_).mp hsum
    ext
    simp only [digit]
    omega
  · exact h slice lane hslice hlane

/-- **One round of both.** Whatever stands in the words besides trits is gone after the table. -/
theorem Slices.round (h : Slices f s) {round : ℕ} (hround : round < 24) :
    Slices (ftroikaRound f round) (troikaRound s round) := by
  have htrytes := h.subTrytes
  have hrows := htrytes.shiftRows
  have hlanes := hrows.shiftLanes (trimmed_subTrytes f).shiftRows
  have hparity := hlanes.addColumnParity (trimmed_shiftLanes _)
  exact hparity.addRoundConstant hround

theorem ftroikaPermutation_succ (n : ℕ) (f : FState) :
    ftroikaPermutation (n + 1) f = ftroikaRound (ftroikaPermutation n f) n := by
  simp only [ftroikaPermutation, List.range_succ, List.foldl_append, List.foldl_cons,
    List.foldl_nil]

/-- **The permutation of both**, with as many rounds as there are constants for. -/
theorem Slices.permutation (h : Slices f s) {rounds : ℕ} (hrounds : rounds ≤ numRounds) :
    Slices (ftroikaPermutation rounds f) (troikaPermutation rounds s) := by
  induction rounds with
  | zero => exact h
  | succ n ih =>
    rw [ftroikaPermutation_succ, troikaPermutation_succ]
    exact (ih (Nat.le_of_succ_le hrounds)).round hrounds

end Troika

end Entangled
