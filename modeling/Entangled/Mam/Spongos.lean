import Entangled.Common.Packing
import Entangled.Common.Trit
/-!
# The spongos

A sponge that is read and written a few trits at a time. What goes in or out passes over the outer
trits of the state from a position on; when the position reaches the rate, and when the caller asks
for it, the state is transformed. The transformation, Troika, may be any function.

Absorbing, squeezing, encrypting and decrypting are one loop (`duplex`) that differs in what it does
to a trit and the outer trit it meets. The loop takes its input in chunks, as long as fit under the
rate; trit by trit it does the same (`duplex_cons`).
-/

namespace Entangled

namespace Mam

/-- `MAM_SPONGE_RATE`. -/
def spongeRate : ℕ := 486

/-- `MAM_SPONGE_WIDTH`. -/
def spongeWidth : ℕ := 729

/-- The transformation of the state. -/
structure Troika where
  transform : List Trit → List Trit
  length_transform : ∀ state, state.length = spongeWidth → (transform state).length = spongeWidth

/-- `mam_spongos_t`. -/
@[ext]
structure Spongos where
  state : List Trit
  pos : ℕ
  length_state : state.length = spongeWidth
  pos_lt : pos < spongeRate

namespace Spongos

/-- `mam_spongos_init`. -/
def init : Spongos := ⟨List.replicate spongeWidth .zero, 0, List.length_replicate, by decide⟩

variable (T : Troika)

/-- `mam_spongos_commit`. -/
def commit (s : Spongos) : Spongos :=
  if s.pos ≠ 0 then ⟨T.transform s.state, 0, T.length_transform _ s.length_state, by decide⟩ else s

theorem length_overwrite (s : Spongos) (outer : List Trit) :
    (blit s.state s.pos (outer.take (spongeRate - s.pos))).length = spongeWidth := by
  have hpos := s.pos_lt
  have hlen := s.length_state
  rw [length_blit, hlen]
  rw [List.length_take, hlen]
  unfold spongeRate spongeWidth at *
  omega

/-- Outer trits overwritten from the position on, and `spongos_update` by their number. -/
def update (s : Spongos) (outer : List Trit) : Spongos :=
  let chunk := outer.take (spongeRate - s.pos)
  if h : s.pos + chunk.length < spongeRate then
    ⟨blit s.state s.pos chunk, s.pos + chunk.length, length_overwrite s outer, h⟩
  else
    ⟨T.transform (blit s.state s.pos chunk), 0, T.length_transform _ (length_overwrite s outer),
      by decide⟩

/-- The loop of the functions below. `f` takes a trit of the input and an outer trit to what goes
out and what the outer trit becomes. -/
def duplex (f : Trit → Trit → Trit × Trit) (s : Spongos) (input : List Trit) :
    List Trit × Spongos :=
  if _h : input = [] then ([], s)
  else
    let n := min input.length (spongeRate - s.pos)
    let chunk := List.zipWith f (input.take n) (s.state.drop s.pos)
    let (rest, s') := duplex f (update T s (chunk.map Prod.snd)) (input.drop n)
    (chunk.map Prod.fst ++ rest, s')
termination_by input.length
decreasing_by
  have hpos := s.pos_lt
  have hne := List.length_pos_iff.mpr _h
  rw [List.length_drop]
  omega

/-- `mam_spongos_absorb`. -/
def absorb (s : Spongos) (input : List Trit) : Spongos := (duplex T (fun x _ => (x, x)) s input).2

/-- `mam_spongos_absorbn`. -/
def absorbn (s : Spongos) (inputs : List (List Trit)) : Spongos := inputs.foldl (absorb T) s

/-- `mam_spongos_squeeze`, of `n` trits. -/
def squeeze (s : Spongos) (n : ℕ) : List Trit × Spongos :=
  duplex T (fun _ y => (y, .zero)) s (List.replicate n .zero)

/-- `mam_spongos_squeeze_eq`. -/
def squeezeEq (s : Spongos) (expectedOutput : List Trit) : Bool × Spongos :=
  let (y, s') := squeeze T s expectedOutput.length
  (y == expectedOutput, s')

/-- `mam_spongos_encr`. -/
def encr (s : Spongos) (plaintext : List Trit) : List Trit × Spongos :=
  duplex T (fun x y => (x.add y, x)) s plaintext

/-- `mam_spongos_decr`. -/
def decr (s : Spongos) (ciphertext : List Trit) : List Trit × Spongos :=
  duplex T (fun x y => (x.sub y, x.sub y)) s ciphertext

/-- `mam_spongos_hashn`, of `n` trits; what is left in the spongos is not used. -/
def hashn (inputs : List (List Trit)) (n : ℕ) : List Trit :=
  (squeeze T (commit T (absorbn T init inputs)) n).1

/-- `mam_spongos_hash`, of `n` trits. -/
def hash (input : List Trit) (n : ℕ) : List Trit := (squeeze T (commit T (absorb T init input)) n).1

/-! ## Trit by trit -/

variable {T} {f : Trit → Trit → Trit × Trit} {s : Spongos} {x : Trit} {xs ys : List Trit}

@[simp] theorem duplex_nil : duplex T f s [] = ([], s) := by
  rw [duplex, dif_pos rfl]

@[simp] theorem update_nil : update T s [] = s := by
  unfold update
  simp only [List.take_nil, List.length_nil, Nat.add_zero, blit_nil]
  rw [dif_pos s.pos_lt]

/-- One trit always fits. -/
theorem take_one (s : Spongos) (x : Trit) : [x].take (spongeRate - s.pos) = [x] := by
  have hpos := s.pos_lt
  refine List.take_of_length_le ?_
  rw [List.length_singleton]
  omega

theorem pos_update_one : (update T s [x]).pos = (s.pos + 1) % spongeRate := by
  have hpos := s.pos_lt
  unfold update
  simp only [take_one, List.length_singleton]
  split_ifs with h
  · exact (Nat.mod_eq_of_lt h).symm
  · rw [show s.pos + 1 = spongeRate by omega, Nat.mod_self]

/-- A trit below the end of the outer part. -/
theorem update_one (hlt : s.pos + 1 < spongeRate) :
    update T s [x] = ⟨blit s.state s.pos [x], s.pos + 1, take_one s x ▸ length_overwrite s [x],
      hlt⟩ := by
  unfold update
  simp only [take_one, List.length_singleton]
  rw [dif_pos hlt]

/-- A chunk below the rate may be cut behind its first trit. -/
theorem update_cons (hlt : s.pos + 1 < spongeRate) :
    update T s (x :: xs) = update T (update T s [x]) xs := by
  have hcut : (x :: xs).take (spongeRate - s.pos) = x :: xs.take (spongeRate - (s.pos + 1)) := by
    rw [show spongeRate - s.pos = spongeRate - (s.pos + 1) + 1 by omega, List.take_succ_cons]
  have hblit : blit s.state s.pos (x :: xs.take (spongeRate - (s.pos + 1))) =
      blit (blit s.state s.pos [x]) (s.pos + 1) (xs.take (spongeRate - (s.pos + 1))) := by
    have hlen := s.length_state
    have hwidth : spongeRate ≤ spongeWidth := by decide
    exact (blit_blit s.state [x] _ s.pos (by
      rw [List.length_singleton, List.length_take]
      omega)).symm
  have hsum : s.pos + (x :: xs.take (spongeRate - (s.pos + 1))).length =
      s.pos + 1 + (xs.take (spongeRate - (s.pos + 1))).length := by
    rw [List.length_cons]
    omega
  rw [update_one hlt]
  unfold update
  simp only [hcut, hblit, hsum]

/-- **Trit by trit** the loop does the same. -/
theorem duplex_cons :
    duplex T f s (x :: xs) =
      ((f x (s.state.getD s.pos .zero)).1 ::
          (duplex T f (update T s [(f x (s.state.getD s.pos .zero)).2]) xs).1,
        (duplex T f (update T s [(f x (s.state.getD s.pos .zero)).2]) xs).2) := by
  have hpos := s.pos_lt
  have hlen := s.length_state
  have hwidth : spongeRate ≤ spongeWidth := by decide
  have hdrop : s.state.drop s.pos = s.state.getD s.pos .zero :: s.state.drop (s.pos + 1) := by
    rw [List.getD_eq_getElem?_getD, List.getElem?_eq_getElem (by omega)]
    exact List.drop_eq_getElem_cons (by omega)
  generalize hp : f x (s.state.getD s.pos .zero) = p
  rw [duplex, dif_neg (List.cons_ne_nil x xs)]
  simp only [List.length_cons, hdrop]
  rcases Nat.lt_or_ge (s.pos + 1) spongeRate with hlt | hge
  · -- the rest of the chunk is the first chunk of the rest
    have hn : min (xs.length + 1) (spongeRate - s.pos) =
        min xs.length (spongeRate - (s.pos + 1)) + 1 := by omega
    rw [hn, List.take_succ_cons, List.zipWith_cons_cons, List.drop_succ_cons, hp, List.map_cons,
      List.map_cons, update_cons hlt]
    have hstate : (update T s [p.2]).state.drop (s.pos + 1) = s.state.drop (s.pos + 1) := by
      rw [update_one hlt]
      exact List.drop_left' (by
        rw [List.length_append, List.length_take, List.length_singleton]
        omega)
    have hnext : (update T s [p.2]).pos = s.pos + 1 := by
      rw [pos_update_one, Nat.mod_eq_of_lt hlt]
    rcases xs with _ | ⟨y, ys⟩
    · simp
    · conv_rhs => rw [duplex, dif_neg (List.cons_ne_nil y ys)]
      simp only [hnext, hstate, List.cons_append]
  · have hn : min (xs.length + 1) (spongeRate - s.pos) = 1 := by omega
    rw [hn, List.take_succ_cons, List.take_zero, List.zipWith_cons_cons, List.drop_succ_cons,
      List.drop_zero, hp, List.map_cons, List.map_cons]
    rfl

theorem length_duplex (f : Trit → Trit → Trit × Trit) (s : Spongos) (xs : List Trit) :
    (duplex T f s xs).1.length = xs.length := by
  induction xs generalizing s with
  | nil => rw [duplex_nil]
  | cons x xs ih => rw [duplex_cons, List.length_cons, ih, List.length_cons]

theorem pos_duplex (f : Trit → Trit → Trit × Trit) (s : Spongos) (xs : List Trit) :
    (duplex T f s xs).2.pos = (s.pos + xs.length) % spongeRate := by
  induction xs generalizing s with
  | nil =>
    rw [duplex_nil]
    exact (Nat.mod_eq_of_lt s.pos_lt).symm
  | cons x xs ih =>
    rw [duplex_cons]
    simp only
    rw [ih, pos_update_one, List.length_cons, Nat.mod_add_mod]
    congr 1
    omega

theorem duplex_append :
    duplex T f s (xs ++ ys) =
      ((duplex T f s xs).1 ++ (duplex T f (duplex T f s xs).2 ys).1,
        (duplex T f (duplex T f s xs).2 ys).2) := by
  induction xs generalizing s with
  | nil => simp
  | cons x xs ih => simp only [List.cons_append, duplex_cons, ih]

/-! ## The four uses -/

theorem pos_absorb (s : Spongos) (xs : List Trit) :
    (absorb T s xs).pos = (s.pos + xs.length) % spongeRate :=
  pos_duplex _ s xs

theorem absorb_append (s : Spongos) (xs ys : List Trit) :
    absorb T s (xs ++ ys) = absorb T (absorb T s xs) ys := by
  rw [absorb, duplex_append]
  rfl

/-- Absorbing one after the other is absorbing at once. -/
theorem absorbn_eq (s : Spongos) (inputs : List (List Trit)) :
    absorbn T s inputs = absorb T s inputs.flatten := by
  induction inputs generalizing s with
  | nil =>
    show s = (duplex T _ s []).2
    rw [duplex_nil]
  | cons input inputs ih =>
    show absorbn T (absorb T s input) inputs = _
    rw [ih, List.flatten_cons, absorb_append]

theorem hashn_eq (inputs : List (List Trit)) (n : ℕ) :
    hashn T inputs n = hash T inputs.flatten n := by
  rw [hashn, absorbn_eq, hash]

@[simp] theorem length_squeeze (s : Spongos) (n : ℕ) : (squeeze T s n).1.length = n := by
  rw [squeeze, length_duplex, List.length_replicate]

theorem pos_squeeze (s : Spongos) (n : ℕ) : (squeeze T s n).2.pos = (s.pos + n) % spongeRate := by
  rw [squeeze, pos_duplex, List.length_replicate]

@[simp] theorem length_hash (input : List Trit) (n : ℕ) : (hash T input n).length = n :=
  length_squeeze _ n

/-- **What was squeezed** is what a second spongos squeezes. -/
theorem squeezeEq_squeeze (s : Spongos) (n : ℕ) :
    squeezeEq T s (squeeze T s n).1 = (true, (squeeze T s n).2) := by
  unfold squeezeEq
  simp only [length_squeeze, beq_self_eq_true]

@[simp] theorem length_encr (s : Spongos) (xs : List Trit) : (encr T s xs).1.length = xs.length :=
  length_duplex _ s xs

/-- **What was encrypted is decrypted**, and leaves both spongos alike. -/
theorem decr_encr (s : Spongos) (xs : List Trit) :
    decr T s (encr T s xs).1 = (xs, (encr T s xs).2) := by
  unfold encr decr
  induction xs generalizing s with
  | nil => rw [duplex_nil, duplex_nil]
  | cons x xs ih =>
    rw [duplex_cons (x := x)]
    simp only
    rw [duplex_cons]
    simp only [Trit.sub_add, ih]

@[simp] theorem pos_commit (s : Spongos) : (commit T s).pos = 0 := by
  unfold commit
  split_ifs with h
  · rfl
  · exact not_not.mp h

end Spongos

end Mam

end Entangled
