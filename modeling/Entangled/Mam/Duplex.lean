import Entangled.Mam.Spongos
/-!
# The spongos in memory

`spongos.c` as it is written: a position that is a number, chunks that are copied, added or swapped
trit by trit, and a ciphertext that goes where the plaintext is or into a buffer of its own. The
loops run as long as something is left; a model that makes them stop has to say how many rounds are
enough.

`duplexLoop_eq` leads each of them back to `Spongos.duplex`. So they do the same to a string and to
its parts one after the other, and what was encrypted is decrypted, into whichever buffer.
-/

namespace Entangled

namespace Mam

/-! ## Trits -/

/-- `MAM_TRIT_NORM`. -/
def tritNorm (t : ℤ) : ℤ := if t = 2 then -1 else if t = -2 then 1 else t

/-- `trit_add`. -/
def tritAdd (x s : Trit) : Trit := .ofInt (tritNorm (x.toInt + s.toInt))

/-- `trit_sub`. -/
def tritSub (y s : Trit) : Trit := .ofInt (tritNorm (y.toInt - s.toInt))

/-- `trit_swap_add`: what becomes of `x` and `s`. -/
def tritSwapAdd (x s : Trit) : Trit × Trit := (tritAdd x s, x)

/-- `trit_swap_sub`. -/
def tritSwapSub (y s : Trit) : Trit × Trit := (tritSub y s, tritSub y s)

/-- `trits_copy_add`: what becomes of `y` and `s`. -/
def tritsCopyAdd : List Trit → List Trit → List Trit → List Trit × List Trit
  | tx :: x, ts :: s, _ :: y =>
    let r := tritsCopyAdd x s y
    (tritAdd tx ts :: r.1, tx :: r.2)
  | _, _, _ => ([], [])

/-- `trits_copy_sub`: what becomes of `x` and `s`. -/
def tritsCopySub : List Trit → List Trit → List Trit → List Trit × List Trit
  | ty :: y, ts :: s, _ :: x =>
    let r := tritsCopySub y s x
    let tx := tritSub ty ts
    (tx :: r.1, tx :: r.2)
  | _, _, _ => ([], [])

/-- `trits_swap_add`: what becomes of `x` and `s`. -/
def tritsSwapAdd : List Trit → List Trit → List Trit × List Trit
  | tx :: x, ts :: s =>
    let p := tritSwapAdd tx ts
    let r := tritsSwapAdd x s
    (p.1 :: r.1, p.2 :: r.2)
  | _, _ => ([], [])

/-- `trits_swap_sub`: what becomes of `y` and `s`. -/
def tritsSwapSub : List Trit → List Trit → List Trit × List Trit
  | ty :: y, ts :: s =>
    let p := tritSwapSub ty ts
    let r := tritsSwapSub y s
    (p.1 :: r.1, p.2 :: r.2)
  | _, _ => ([], [])

/-- The loop of `trits_cmp_grlex`. -/
def tritsDifference : List Trit → List Trit → ℤ
  | tx :: x, ty :: y =>
    let d := tx.toInt - ty.toInt
    if d = 0 then tritsDifference x y else d
  | _, _ => 0

/-- `trits_cmp_grlex`. -/
def tritsCmpGrlex (x y : List Trit) : ℤ :=
  if x.length < y.length then -3 else if y.length < x.length then 3 else tritsDifference x y

/-- `trits_cmp_eq`. -/
def tritsCmpEq (x y : List Trit) : Bool := tritsCmpGrlex x y = 0

theorem tritAdd_eq (x s : Trit) : tritAdd x s = x.add s := by
  cases x <;> cases s <;> decide

theorem tritSub_eq (y s : Trit) : tritSub y s = y.sub s := by
  cases y <;> cases s <;> decide

theorem Trit.toInt_inj {t u : Trit} (h : t.toInt = u.toInt) : t = u := by
  rw [← Trit.ofInt_toInt t, h, Trit.ofInt_toInt]

theorem tritsDifference_eq_zero {x y : List Trit} (hlen : x.length = y.length) :
    tritsDifference x y = 0 ↔ x = y := by
  induction x generalizing y with
  | nil =>
    rw [List.eq_nil_of_length_eq_zero hlen.symm]
    exact iff_of_true rfl rfl
  | cons tx x ih =>
    cases y with
    | nil => cases hlen
    | cons ty y =>
      rw [tritsDifference, List.cons.injEq]
      split_ifs with hd
      · rw [ih (Nat.succ.inj hlen)]
        exact ⟨fun h => ⟨Trit.toInt_inj (by omega), h⟩, fun h => h.2⟩
      · refine iff_of_false hd fun h => hd ?_
        rw [h.1]
        omega

theorem tritsCmpEq_eq (x y : List Trit) : tritsCmpEq x y = decide (x = y) := by
  rw [tritsCmpEq, decide_eq_decide, tritsCmpGrlex]
  split_ifs with hlt hgt
  · exact iff_of_false (by decide) fun h => by
      rw [h] at hlt
      exact Nat.lt_irrefl _ hlt
  · exact iff_of_false (by decide) fun h => by
      rw [h] at hgt
      exact Nat.lt_irrefl _ hgt
  · exact tritsDifference_eq_zero (by omega)

/-! ## The loops -/

/-- `mam_spongos_t`, of any content. -/
structure SpongosT where
  state : List Trit
  pos : ℕ

/-- A spongos in memory. -/
def Spongos.toT (s : Spongos) : SpongosT := ⟨s.state, s.pos⟩

namespace SpongosT

variable (T : Troika)

/-- `spongos_outer_trits`. -/
def outer (s : SpongosT) : List Trit := (s.state.take spongeRate).drop s.pos

/-- The first outer trits overwritten. -/
def setOuter (s : SpongosT) (ts : List Trit) : SpongosT :=
  { s with state := blit s.state s.pos ts }

/-- `mam_spongos_commit`. -/
def commit (s : SpongosT) : SpongosT := if s.pos ≠ 0 then ⟨T.transform s.state, 0⟩ else s

/-- `spongos_update`. -/
def update (s : SpongosT) (n : ℕ) : SpongosT :=
  let s := { s with pos := s.pos + n }
  if s.pos = spongeRate then s.commit T else s

/-- The loop of the functions below, for so many rounds: `op` says what becomes of a chunk of the
buffer that is written and of the outer trits. -/
def duplexLoop (op : List Trit → List Trit → List Trit → List Trit × List Trit) :
    ℕ → SpongosT → List Trit → List Trit → Option (List Trit × SpongosT)
  | _, s, _, [] => some ([], s)
  | 0, _, _, _ :: _ => none
  | rounds + 1, s, input, c :: cs =>
    let n := min input.length s.outer.length
    let r := op (input.take n) (s.outer.take n) ((c :: cs).take n)
    (duplexLoop op rounds ((s.setOuter r.2).update T n) (input.drop n) ((c :: cs).drop n)).map
      fun q => (r.1 ++ q.1, q.2)

/-- `mam_spongos_absorb`, which leaves the input as it is. -/
def absorb (s : SpongosT) (input : List Trit) : Option SpongosT :=
  (duplexLoop T (fun x _ _ => (x, x)) input.length s input input).map Prod.snd

/-- `mam_spongos_squeeze`, over what the output held. -/
def squeeze (s : SpongosT) (output : List Trit) : Option (List Trit × SpongosT) :=
  duplexLoop T (fun _ y _ => (y, List.replicate y.length .zero)) output.length s output output

/-- The loop of `mam_spongos_squeeze_eq`. -/
def squeezeEqLoop : ℕ → SpongosT → Bool → List Trit → Option (Bool × SpongosT)
  | _, s, r, [] => some (r, s)
  | 0, _, _, _ :: _ => none
  | rounds + 1, s, r, c :: cs =>
    let y := s.outer.take (c :: cs).length
    let n := y.length
    let r := tritsCmpEq y ((c :: cs).take n) && r
    squeezeEqLoop rounds ((s.setOuter (List.replicate n .zero)).update T n) r ((c :: cs).drop n)

/-- `mam_spongos_squeeze_eq`. -/
def squeezeEq (s : SpongosT) (expectedOutput : List Trit) : Option (Bool × SpongosT) :=
  squeezeEqLoop T expectedOutput.length s true expectedOutput

/-- Where the output goes: over the input, or into another buffer, which holds something. -/
inductive Buffer
  | same
  | other (content : List Trit)

/-- What is in the buffer. -/
def Buffer.content (b : Buffer) (input : List Trit) : List Trit :=
  match b with
  | .same => input
  | .other content => content

/-- The output has the size of the input. -/
def Buffer.Fits (b : Buffer) (input : List Trit) : Prop := (b.content input).length = input.length

/-- `mam_spongos_encr`. -/
def encr (s : SpongosT) (plaintext : List Trit) (ciphertext : Buffer) :
    Option (List Trit × SpongosT) :=
  duplexLoop T (fun x s y => match ciphertext with
    | .same => tritsSwapAdd x s
    | .other _ => tritsCopyAdd x s y)
    (ciphertext.content plaintext).length s plaintext (ciphertext.content plaintext)

/-- `mam_spongos_decr`. -/
def decr (s : SpongosT) (ciphertext : List Trit) (plaintext : Buffer) :
    Option (List Trit × SpongosT) :=
  duplexLoop T (fun y s x => match plaintext with
    | .same => tritsSwapSub y s
    | .other _ => tritsCopySub y s x)
    (plaintext.content ciphertext).length s ciphertext (plaintext.content ciphertext)

end SpongosT

/-! ## What a chunk becomes -/

section Chunks

variable {x s y : List Trit}

/-- What a chunk and the outer trits become, trit by trit. -/
def chunkOf (f : Trit → Trit → Trit × Trit) (x s : List Trit) : List Trit × List Trit :=
  ((List.zipWith f x s).map Prod.fst, (List.zipWith f x s).map Prod.snd)

theorem tritsCopyAdd_eq (hs : x.length = s.length) (hy : x.length = y.length) :
    tritsCopyAdd x s y = chunkOf (fun x y => (x.add y, x)) x s := by
  induction x generalizing s y with
  | nil => rfl
  | cons tx x ih =>
    obtain ⟨ts, s, rfl⟩ := List.exists_cons_of_length_eq_add_one hs.symm
    obtain ⟨ty, y, rfl⟩ := List.exists_cons_of_length_eq_add_one hy.symm
    rw [tritsCopyAdd, ih (Nat.succ.inj hs) (Nat.succ.inj hy), tritAdd_eq]
    rfl

theorem tritsCopySub_eq (hs : y.length = s.length) (hx : y.length = x.length) :
    tritsCopySub y s x = chunkOf (fun x y => (x.sub y, x.sub y)) y s := by
  induction y generalizing s x with
  | nil => rfl
  | cons ty y ih =>
    obtain ⟨ts, s, rfl⟩ := List.exists_cons_of_length_eq_add_one hs.symm
    obtain ⟨tx, x, rfl⟩ := List.exists_cons_of_length_eq_add_one hx.symm
    rw [tritsCopySub, ih (Nat.succ.inj hs) (Nat.succ.inj hx), tritSub_eq]
    rfl

theorem tritsSwapAdd_eq (x s : List Trit) :
    tritsSwapAdd x s = chunkOf (fun x y => (x.add y, x)) x s := by
  induction x generalizing s with
  | nil => rfl
  | cons tx x ih =>
    cases s with
    | nil => rfl
    | cons ts s =>
      rw [tritsSwapAdd, ih, tritSwapAdd, tritAdd_eq]
      rfl

theorem tritsSwapSub_eq (y s : List Trit) :
    tritsSwapSub y s = chunkOf (fun x y => (x.sub y, x.sub y)) y s := by
  induction y generalizing s with
  | nil => rfl
  | cons ty y ih =>
    cases s with
    | nil => rfl
    | cons ts s =>
      rw [tritsSwapSub, ih, tritSwapSub, tritSub_eq]
      rfl

theorem chunkOf_absorb (hs : x.length = s.length) : chunkOf (fun x _ => (x, x)) x s = (x, x) := by
  have hmap : (List.zipWith (fun x _ => (x, x)) x s : List (Trit × Trit)) =
      x.map fun x => (x, x) := by
    induction x generalizing s with
    | nil => rfl
    | cons tx x ih =>
      obtain ⟨ts, s, rfl⟩ := List.exists_cons_of_length_eq_add_one hs.symm
      rw [List.zipWith_cons_cons, ih (Nat.succ.inj hs), List.map_cons]
  rw [chunkOf, hmap, List.map_map, List.map_map]
  exact Prod.ext x.map_id x.map_id

theorem chunkOf_squeeze (hs : x.length = s.length) :
    chunkOf (fun _ y => (y, .zero)) x s = (s, List.replicate s.length .zero) := by
  have hmap : (List.zipWith (fun _ y => (y, .zero)) x s : List (Trit × Trit)) =
      s.map fun y => (y, .zero) := by
    induction x generalizing s with
    | nil => rw [List.eq_nil_of_length_eq_zero hs.symm]; rfl
    | cons tx x ih =>
      obtain ⟨ts, s, rfl⟩ := List.exists_cons_of_length_eq_add_one hs.symm
      rw [List.zipWith_cons_cons, ih (Nat.succ.inj hs), List.map_cons]
  rw [chunkOf, hmap, List.map_map, List.map_map]
  exact Prod.ext s.map_id List.map_const'

end Chunks

/-! ## The loops are the duplex -/

section Loops

variable {T : Troika} {f : Trit → Trit → Trit × Trit} {s : Spongos}

theorem length_outer (s : Spongos) : s.toT.outer.length = spongeRate - s.pos := by
  have hlen := s.length_state
  have hwidth : spongeRate ≤ spongeWidth := by decide
  show ((s.state.take spongeRate).drop s.pos).length = _
  rw [List.length_drop, List.length_take]
  omega

theorem take_outer (s : Spongos) {n : ℕ} (hn : n ≤ spongeRate - s.pos) :
    s.toT.outer.take n = (s.state.drop s.pos).take n := by
  show ((s.state.take spongeRate).drop s.pos).take n = _
  rw [List.drop_take, List.take_take, min_eq_left hn]

/-- Writing some outer trits and going on behind them. -/
theorem toT_update {outer : List Trit} (hlen : outer.length ≤ spongeRate - s.pos) :
    (s.toT.setOuter outer).update T outer.length = (Spongos.update T s outer).toT := by
  have hpos := s.pos_lt
  unfold Spongos.update SpongosT.update
  simp only [List.take_of_length_le hlen]
  by_cases hlt : s.pos + outer.length < spongeRate
  · rw [dif_pos hlt]
    exact if_neg (Nat.ne_of_lt hlt)
  · have hrate : s.pos + outer.length = spongeRate := by omega
    have hne : s.pos + outer.length ≠ 0 := by
      rw [hrate]
      decide
    rw [dif_neg hlt]
    refine (if_pos hrate).trans ?_
    rw [SpongosT.commit]
    exact if_pos hne

/-- **The loops are the duplex**: each round takes a chunk, so a round for each trit is enough. -/
theorem duplexLoop_eq {op : List Trit → List Trit → List Trit → List Trit × List Trit}
    (hop : ∀ x s y, x.length = s.length → x.length = y.length → op x s y = chunkOf f x s)
    {rounds : ℕ} {input output : List Trit} (hlen : output.length = input.length)
    (hrounds : output.length ≤ rounds) :
    SpongosT.duplexLoop T op rounds s.toT input output =
      some ((s.duplex T f input).1, (s.duplex T f input).2.toT) := by
  induction rounds generalizing s input output with
  | zero =>
    obtain rfl := List.eq_nil_of_length_eq_zero (Nat.le_zero.mp hrounds)
    obtain rfl := List.eq_nil_of_length_eq_zero hlen.symm
    rw [SpongosT.duplexLoop, Spongos.duplex_nil]
  | succ rounds ih =>
    cases output with
    | nil =>
      obtain rfl := List.eq_nil_of_length_eq_zero hlen.symm
      rw [SpongosT.duplexLoop, Spongos.duplex_nil]
    | cons c cs =>
      have hpos := s.pos_lt
      have hne : input ≠ [] := by
        rintro rfl
        cases hlen
      rw [List.length_cons] at hlen hrounds
      rw [Spongos.duplex, dif_neg hne, SpongosT.duplexLoop, length_outer]
      -- the chunk, as the loop and as the duplex see it
      obtain ⟨n, hn⟩ : ∃ n, n = min input.length (spongeRate - s.pos) := ⟨_, rfl⟩
      have hinput : (input.take n).length = n := by
        rw [List.length_take]
        omega
      have houter : (s.toT.outer.take n).length = n := by
        rw [List.length_take, length_outer]
        omega
      have houtput : ((c :: cs).take n).length = n := by
        rw [List.length_take, List.length_cons]
        omega
      have hchunk : List.zipWith f (input.take n) (s.toT.outer.take n) =
          List.zipWith f (input.take n) (s.state.drop s.pos) := by
        have hle : (List.zipWith f (input.take n) (s.state.drop s.pos)).length ≤ n := by
          rw [List.length_zipWith, hinput]
          exact min_le_left _ _
        rw [take_outer s (by omega), ← List.take_of_length_le hle, List.take_zipWith,
          List.take_take, min_self]
      rw [← hn]
      dsimp only
      rw [hop _ _ _ (hinput.trans houter.symm) (hinput.trans houtput.symm), chunkOf, hchunk]
      have hchunkLen : ((List.zipWith f (input.take n) (s.state.drop s.pos)).map Prod.snd).length =
          n := by
        rw [List.length_map, ← hchunk, List.length_zipWith, hinput, houter, min_self]
      have hstep := @toT_update T s
        ((List.zipWith f (input.take n) (s.state.drop s.pos)).map Prod.snd) (by omega)
      rw [hchunkLen] at hstep
      dsimp only
      rw [hstep, ih]
      · rfl
      · rw [List.length_drop, List.length_drop, List.length_cons, hlen]
      · rw [List.length_drop, List.length_cons]
        omega

/-- A chunk below the rate, squeezed. -/
theorem squeeze_chunk {n : ℕ} (hn : n ≤ spongeRate - s.pos) :
    s.squeeze T n = (s.toT.outer.take n, s.update T (List.replicate n .zero)) := by
  rcases Nat.eq_zero_or_pos n with rfl | hpos
  · rw [Spongos.squeeze, List.replicate_zero, Spongos.duplex_nil, Spongos.update_nil,
      List.take_zero]
  · have hne : List.replicate n Trit.zero ≠ [] := by
      rw [← List.length_pos_iff, List.length_replicate]
      exact hpos
    have hlen : (s.toT.outer.take n).length = n := by
      rw [List.length_take, length_outer]
      omega
    have hchunk := chunkOf_squeeze (x := List.replicate n .zero) (s := s.toT.outer.take n)
      (List.length_replicate.trans hlen.symm)
    have hzip : List.zipWith (fun (_ : Trit) y => (y, Trit.zero)) (List.replicate n .zero)
        (s.state.drop s.pos) =
        List.zipWith (fun (_ : Trit) y => (y, Trit.zero)) (List.replicate n .zero)
          (s.toT.outer.take n) := by
      have hle : (List.zipWith (fun (_ : Trit) y => (y, Trit.zero)) (List.replicate n .zero)
          (s.state.drop s.pos)).length ≤ n := by
        rw [List.length_zipWith, List.length_replicate]
        exact min_le_left _ _
      rw [take_outer s hn, ← List.take_of_length_le hle, List.take_zipWith, List.take_replicate,
        min_self]
    rw [chunkOf, ← hzip, hlen] at hchunk
    rw [Spongos.squeeze, Spongos.duplex, dif_neg hne, List.length_replicate, min_eq_left hn]
    simp only [List.take_replicate, min_self, List.drop_replicate, Nat.sub_self,
      List.replicate_zero, Spongos.duplex_nil, List.append_nil]
    exact congrArg₂ Prod.mk (congrArg Prod.fst hchunk)
      (congrArg (s.update T) (congrArg Prod.snd hchunk))

theorem squeeze_add (s : Spongos) (m n : ℕ) :
    s.squeeze T (m + n) =
      ((s.squeeze T m).1 ++ ((s.squeeze T m).2.squeeze T n).1, ((s.squeeze T m).2.squeeze T n).2) := by
  unfold Spongos.squeeze
  rw [List.replicate_add, Spongos.duplex_append]

/-- The loop of the comparison: a chunk that differs is not forgotten. -/
theorem squeezeEqLoop_eq {rounds : ℕ} {r : Bool} {expected : List Trit}
    (hrounds : expected.length ≤ rounds) :
    SpongosT.squeezeEqLoop T rounds s.toT r expected =
      some (decide ((s.squeeze T expected.length).1 = expected) && r,
        (s.squeeze T expected.length).2.toT) := by
  have hnil (s : Spongos) : s.squeeze T 0 = ([], s) := by
    rw [Spongos.squeeze, List.replicate_zero, Spongos.duplex_nil]
  induction rounds generalizing s r expected with
  | zero =>
    obtain rfl := List.eq_nil_of_length_eq_zero (Nat.le_zero.mp hrounds)
    rw [SpongosT.squeezeEqLoop, List.length_nil, hnil]
    rfl
  | succ rounds ih =>
    cases expected with
    | nil =>
      rw [SpongosT.squeezeEqLoop, List.length_nil, hnil]
      rfl
    | cons c cs =>
      have hpos := s.pos_lt
      obtain ⟨n, hn⟩ : ∃ n, n = min (cs.length + 1) (spongeRate - s.pos) := ⟨_, rfl⟩
      obtain ⟨k, hk⟩ : ∃ k, cs.length + 1 = n + k := ⟨cs.length + 1 - n, by omega⟩
      have hcut : (s.toT.outer.take n).length = n := by
        rw [List.length_take, length_outer]
        omega
      have htake : s.toT.outer.take (cs.length + 1) = s.toT.outer.take n := by
        rw [List.take_eq_take_min, length_outer, ← hn]
      have hdrop : ((c :: cs).drop n).length = k := by
        rw [List.length_drop, List.length_cons]
        omega
      have hstep := @toT_update T s (List.replicate n .zero) (by
        rw [List.length_replicate]
        omega)
      rw [List.length_replicate] at hstep
      have hrest : ((c :: cs).drop n).length ≤ rounds := by
        rw [List.length_cons] at hrounds
        omega
      rw [SpongosT.squeezeEqLoop, List.length_cons, htake, hcut, hstep, ih hrest, hdrop, hk,
        squeeze_add, squeeze_chunk (s := s) (by omega)]
      refine congrArg some (Prod.ext ?_ rfl)
      dsimp only
      -- the chunk agrees and the rest agrees
      have hiff (y z : List Trit) (hy : y.length = n) : y ++ z = c :: cs ↔
          z = (c :: cs).drop n ∧ y = (c :: cs).take n := by
        refine ⟨fun h => ⟨?_, ?_⟩, fun h => ?_⟩
        · rw [← h, List.drop_left' hy]
        · rw [← h, List.take_left' hy]
        · rw [h.1, h.2, List.take_append_drop]
      rw [tritsCmpEq_eq, decide_eq_decide.mpr (hiff _ _ hcut), Bool.decide_and, Bool.and_assoc]

/-! ## The stream -/

theorem absorb_toT (s : Spongos) (xs : List Trit) :
    SpongosT.absorb T s.toT xs = some (s.absorb T xs).toT := by
  rw [SpongosT.absorb, duplexLoop_eq (fun x s y hs _ => (chunkOf_absorb hs).symm) rfl le_rfl]
  rfl

/-- What the output held does not matter. -/
theorem duplex_squeeze (s : Spongos) (output : List Trit) :
    s.duplex T (fun _ y => (y, .zero)) output = s.squeeze T output.length := by
  rw [Spongos.squeeze]
  induction output generalizing s with
  | nil => rfl
  | cons c cs ih =>
    rw [List.length_cons, List.replicate_succ, Spongos.duplex_cons, Spongos.duplex_cons, ih]

theorem squeeze_toT (s : Spongos) (output : List Trit) :
    SpongosT.squeeze T s.toT output =
      some ((s.squeeze T output.length).1, (s.squeeze T output.length).2.toT) := by
  rw [SpongosT.squeeze, duplexLoop_eq (fun x s y hs _ => (chunkOf_squeeze hs).symm) rfl le_rfl,
    duplex_squeeze]

theorem encr_toT (s : Spongos) {xs : List Trit} {b : SpongosT.Buffer} (hb : b.Fits xs) :
    SpongosT.encr T s.toT xs b = some ((s.encr T xs).1, (s.encr T xs).2.toT) := by
  refine duplexLoop_eq (fun x s y hs hy => ?_) hb le_rfl
  cases b with
  | same => exact tritsSwapAdd_eq x s
  | other content => exact tritsCopyAdd_eq hs hy

theorem decr_toT (s : Spongos) {ys : List Trit} {b : SpongosT.Buffer} (hb : b.Fits ys) :
    SpongosT.decr T s.toT ys b = some ((s.decr T ys).1, (s.decr T ys).2.toT) := by
  refine duplexLoop_eq (fun y s x hs hx => ?_) hb le_rfl
  cases b with
  | same => exact tritsSwapSub_eq y s
  | other content => exact tritsCopySub_eq hs hx

end Loops

/-- What the functions do to a spongos in memory whose position is below the rate; each leaves such a
spongos. -/
structure StreamLaws (T : Troika) : Prop where
  /-- Absorbing one string and another is absorbing both at once. -/
  absorb (s : Spongos) (a b : List Trit) :
    ∃ s₁ s₂ : Spongos, SpongosT.absorb T s.toT a = some s₁.toT ∧
      SpongosT.absorb T s₁.toT b = some s₂.toT ∧
      SpongosT.absorb T s.toT (a ++ b) = some s₂.toT
  /-- The same of squeezing, over whatever the outputs hold. -/
  squeeze (s : Spongos) (a b c : List Trit) (hc : c.length = a.length + b.length) :
    ∃ (y z : List Trit) (s₁ s₂ : Spongos), SpongosT.squeeze T s.toT a = some (y, s₁.toT) ∧
      SpongosT.squeeze T s₁.toT b = some (z, s₂.toT) ∧
      SpongosT.squeeze T s.toT c = some (y ++ z, s₂.toT)
  /-- The same of encrypting, in place or not. -/
  encr (s : Spongos) (a b : List Trit) (ya yb yab : SpongosT.Buffer) (ha : ya.Fits a)
    (hb : yb.Fits b) (hab : yab.Fits (a ++ b)) :
    ∃ (y z : List Trit) (s₁ s₂ : Spongos), SpongosT.encr T s.toT a ya = some (y, s₁.toT) ∧
      SpongosT.encr T s₁.toT b yb = some (z, s₂.toT) ∧
      SpongosT.encr T s.toT (a ++ b) yab = some (y ++ z, s₂.toT)
  /-- The same of decrypting. -/
  decr (s : Spongos) (a b : List Trit) (xa xb xab : SpongosT.Buffer) (ha : xa.Fits a)
    (hb : xb.Fits b) (hab : xab.Fits (a ++ b)) :
    ∃ (y z : List Trit) (s₁ s₂ : Spongos), SpongosT.decr T s.toT a xa = some (y, s₁.toT) ∧
      SpongosT.decr T s₁.toT b xb = some (z, s₂.toT) ∧
      SpongosT.decr T s.toT (a ++ b) xab = some (y ++ z, s₂.toT)
  /-- What was encrypted is decrypted, and both leave the same spongos. -/
  inverse (s : Spongos) (p : List Trit) (c : SpongosT.Buffer) (hc : c.Fits p) :
    ∃ (y : List Trit) (s' : Spongos), SpongosT.encr T s.toT p c = some (y, s'.toT) ∧
      ∀ x : SpongosT.Buffer, x.Fits y → SpongosT.decr T s.toT y x = some (p, s'.toT)
  /-- The comparison is with what would be squeezed, and squeezes it. -/
  compare (s : Spongos) (expected : List Trit) :
    ∃ (y : List Trit) (s' : Spongos),
      (∀ output, output.length = expected.length →
        SpongosT.squeeze T s.toT output = some (y, s'.toT)) ∧
      SpongosT.squeezeEq T s.toT expected = some (decide (y = expected), s'.toT)

/-- **The spongos is a stream**, and decryption inverts encryption. -/
theorem streamLaws (T : Troika) : StreamLaws T where
  absorb s a b :=
    ⟨_, _, absorb_toT s a, absorb_toT _ b, by rw [absorb_toT, Spongos.absorb_append]⟩
  squeeze s a b c hc :=
    ⟨_, _, _, _, squeeze_toT s a, squeeze_toT _ b, by rw [squeeze_toT, hc, squeeze_add]⟩
  encr s a b ya yb yab ha hb hab := by
    refine ⟨_, _, _, _, encr_toT s ha, encr_toT _ hb, ?_⟩
    rw [encr_toT s hab, Spongos.encr, Spongos.duplex_append]
    rfl
  decr s a b xa xb xab ha hb hab := by
    refine ⟨_, _, _, _, decr_toT s ha, decr_toT _ hb, ?_⟩
    rw [decr_toT s hab, Spongos.decr, Spongos.duplex_append]
    rfl
  inverse s p c hc := by
    refine ⟨_, _, encr_toT s hc, fun x hx => ?_⟩
    rw [decr_toT s hx, Spongos.decr_encr]
  compare s expected := by
    refine ⟨(s.squeeze T expected.length).1, (s.squeeze T expected.length).2,
      fun output hlen => ?_, ?_⟩
    · rw [squeeze_toT, hlen]
    · rw [SpongosT.squeezeEq, squeezeEqLoop_eq le_rfl, Bool.and_true]

end Mam

end Entangled
