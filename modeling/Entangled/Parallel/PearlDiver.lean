import Entangled.Parallel.Sponge
/-!
# The search for a nonce

`pearl_diver.c`, `hashcash.c` and `ptrit_incr.c`. Every thread has the state to start from in all
lanes, but for a stretch of it that is different in every lane; it transforms a copy, looks for a
lane with enough zeros, and counts the stretch on.

Which thread finds what, and when, is open (`found`). Whatever it is, the stretch of the lane that
passed the test is put into the scalar state, so a lane needs only be a state that differs from the
scalar one in this stretch (`Candidate`), and the transformation of the lane is that of the state.
-/

namespace Entangled

namespace Parallel

open Ternary Prototype

section Machine

variable {n : ℕ}

/-! ## Counting -/

/-- `trits_inc`: the first trits of the array count on. -/
def tritsInc : ℕ → List ℤ → List ℤ
  | 0, ts => ts
  | _, [] => []
  | count + 1, t :: ts => if t + 1 = 2 then -1 :: tritsInc count ts else (t + 1) :: ts

/-- The loop of `ptrit_log3`. -/
def ptritLog3From (size k g : ℕ) : ℕ :=
  if _h : 0 < g ∧ g < size then ptritLog3From size (k + 1) (g * 3) else k
termination_by size - g

/-- `ptrit_log3`. -/
def ptritLog3 (size : ℕ) : ℕ := ptritLog3From size 0 1

/-- What is done to the part of the memory that begins at `start`. -/
def window (start : ℕ) (f : (ℕ → Ptrit n) → ℕ → Ptrit n) (m : ℕ → Ptrit n) : ℕ → Ptrit n :=
  fun k => if start ≤ k then f (fun j => m (start + j)) (k - start) else m k

/-- `ptrit_set_iota`: the range and the value. -/
def ptritSetIota (C : Cvt) (count start : ℕ) (m : ℕ → Ptrit n) (value : List ℤ) :
    (ℕ → Ptrit n) × List ℤ :=
  (List.range n).foldl (fun s i =>
    (window start (fun range => ptritsSetSlice C range i (s.2.take count)) s.1,
      tritsInc count s.2)) (m, value)

/-- A step of `ptrit_hincr`: the next trit in every lane, and the carries. -/
def hincrStep (C : Cvt) (t : Ptrit n) : Ptrit n × BitVec n :=
  let a := t.low
  let low := t.low ^^^ t.high
  match C with
  | .andn => (⟨low, a⟩, ~~~a &&& low)
  | .orn => (⟨low, ~~~a⟩, a &&& t.high)

/-- `ptrit_hincr`, at the place `t`; what is looked at is the first byte of the carry. -/
def ptritHincr (C : Cvt) : ℕ → ℕ → (ℕ → Ptrit n) → Bool × (ℕ → Ptrit n)
  | 0, _, m => (true, m)
  | left + 1, t, m =>
    let (next, carry) := hincrStep C (m t)
    let m := Function.update m t next
    if carry.toNat % 2 ^ 8 = 0 then (false, m) else ptritHincr C left (t + 1) m

/-! ## The test -/

/-- The word of `ptrits_find_zero_slice`: the lanes in which `count` trits are zeros. -/
def zeroLanes (C : Cvt) (count start : ℕ) (m : ℕ → Ptrit n) : BitVec n :=
  match C with
  | .andn =>
    (List.range count).foldl (fun t k => t &&& ((m (start + k)).low &&& (m (start + k)).high))
      (BitVec.allOnes n)
  | .orn =>
    ~~~((List.range count).foldl
      (fun t k => t ||| (~~~(m (start + k)).high ||| (m (start + k)).low)) 0#n)

/-- `ptrits_find_zero_slice`: the first such lane, or the number of lanes. -/
def ptritsFindZeroSlice (C : Cvt) (count start : ℕ) (m : ℕ → Ptrit n) : ℕ :=
  ((List.range n).find? fun i => (zeroLanes C count start m).getLsbD i).getD n

/-- `test` of `hashcash.c`. -/
def hashcashTest (C : Cvt) (mwm : ℕ) (m : ℕ → Ptrit n) : Option ℕ :=
  let i := ptritsFindZeroSlice C mwm (243 - mwm) m
  if n = i then none else some i

/-! ## The threads -/

/-- The loop of `init_inst`: the states the threads begin with. -/
def instances (C : Cvt) (log3 start : ℕ) (pcurl : ℕ → Ptrit n) : ℕ → List ℤ → List (ℕ → Ptrit n)
  | 0, _ => []
  | procs + 1, value =>
    let (m, value) := ptritSetIota C log3 start pcurl value
    m :: instances C log3 start pcurl procs value

/-- `n_log3` of `init_inst`. -/
def initLog3 (n procs start stop : ℕ) : ℕ := min (ptritLog3 (n * procs)) (stop - start)

/-- `init_inst`. -/
def initInst (C : Cvt) (procs start stop : ℕ) (pcurl : ℕ → Ptrit n) : List (ℕ → Ptrit n) :=
  let log3 := initLog3 n procs start stop
  let value := List.replicate 729 (-1)
  let pcurl := window (start + log3) (ptritsFill C (value.take (stop - (start + log3)))) pcurl
  instances C log3 start pcurl procs value

/-- The state a thread has counted on to, after so many rounds of `run_search_thread`. -/
def searchState (C : Cvt) (start stop rounds : ℕ) (m : ℕ → Ptrit n) : ℕ → Ptrit n :=
  (fun m => (ptritHincr C (stop - start) start m).2)^[rounds] m

/-- Trits put into a state, where there is room for them. -/
def putTrits (ctx : CurlState) (start : ℕ) (ts : List ℤ) : CurlState :=
  if h : start + ts.length ≤ 729 then
    ⟨blit ctx.trits start ts, by
      have hlen := ctx.length_trits
      rw [length_blit (by omega), hlen]⟩
  else ctx

/-- `pd_search_n`, where `found` tells the thread that is joined with a result and its rounds before
that, if there is one. -/
def pdSearch (C : Cvt) (L : Layout) (type n procs : ℕ) (ctx : CurlState) (start stop : ℕ)
    (test : (ℕ → Ptrit n) → Option ℕ) (found : Option (ℕ × ℕ)) : Option CurlState := do
  let (thread, rounds) ← found
  let insts := initInst C procs start stop (ptritsFill C ctx.trits (pcurlReset C))
  let inst ← insts[thread]?
  let log3 := initLog3 n procs start stop
  let pcurl := searchState C (start + log3) stop rounds inst
  let index ← test (pcurlTransform C L type pcurl)
  pure (putTrits ctx start (ptritsGetSlice C (stop - start) (fun k => pcurl (start + k)) index))

/-- `hashcash`. -/
def hashcash (C : Cvt) (L : Layout) (type n procs : ℕ) (ctx : CurlState) (start stop mwm : ℕ)
    (found : Option (ℕ × ℕ)) : Option CurlState :=
  pdSearch C L type n procs ctx start stop (hashcashTest C mwm) found

end Machine

/-! ## What every lane of a thread is -/

section Lanes

variable {n i start stop : ℕ} {C : Cvt} {L : Layout} {ctx : CurlState} {m m' : ℕ → Ptrit n}

/-- Every lane is the state `ctx`, but for any trits from `start` to `stop`. -/
structure Candidate (C : Cvt) (ctx : CurlState) (start stop : ℕ) (m : ℕ → Ptrit n) : Prop where
  trit : ∀ i < n, ∀ k < 729, IsTrit (ptritGet C (m k) i)
  kept : ∀ i < n, ∀ k < 729, k < start ∨ stop ≤ k → ptritGet C (m k) i = ctx.trits.getD k 0

/-- Trits written to the stretch leave a candidate. -/
theorem Candidate.written (h : Candidate C ctx start stop m)
    (hin : ∀ k, start ≤ k → k < stop → ∀ i < n, IsTrit (ptritGet C (m' k) i))
    (hout : ∀ k, k < start ∨ stop ≤ k → m' k = m k) : Candidate C ctx start stop m' where
  trit := by
    intro i hi k hk
    by_cases hstretch : start ≤ k ∧ k < stop
    · exact hin k hstretch.1 hstretch.2 i hi
    · rw [hout k (by omega)]
      exact h.trit i hi k hk
  kept := by
    intro i hi k hk hclear
    rw [hout k hclear]
    exact h.kept i hi k hk hclear

theorem candidate_fill (hctx : Trits ctx.trits) :
    Candidate C ctx start stop (ptritsFill C ctx.trits (pcurlReset C : ℕ → Ptrit n)) := by
  have hget : ∀ i < n, ∀ k < 729, ptritGet C (ptritsFill C ctx.trits
      (pcurlReset C : ℕ → Ptrit n) k) i = ctx.trits.getD k 0 := by
    intro i hi k hk
    rw [ptritsFill, if_pos (by rw [ctx.length_trits]; exact hk), ptritGet_fill (hctx.getD k) hi]
  refine ⟨fun i hi k hk => ?_, fun i hi k hk _ => hget i hi k hk⟩
  rw [hget i hi k hk]
  exact hctx.getD k

theorem trits_tritsInc {count : ℕ} {ts : List ℤ} (h : Trits ts) : Trits (tritsInc count ts) := by
  induction count generalizing ts with
  | zero => exact h
  | succ count ih =>
    cases ts with
    | nil => exact h
    | cons t ts =>
      obtain ⟨ht, hts⟩ := trits_cons.mp h
      rw [tritsInc]
      split
      · exact trits_cons.mpr ⟨by decide, ih hts⟩
      · next hne =>
        refine trits_cons.mpr ⟨?_, hts⟩
        unfold IsTrit at ht ⊢
        omega

/-- Counting takes trits to trits, in every lane. -/
theorem isTrit_hincrStep {t : Ptrit n} (hi : i < n) (ht : IsTrit (ptritGet C t i)) :
    IsTrit (ptritGet C (hincrStep C t).1 i) := by
  revert ht
  cases C <;>
    simp only [ptritGet, hincrStep, BitVec.getLsbD_xor, BitVec.getLsbD_not, decide_eq_true hi,
      Bool.true_and] <;>
    cases t.low.getLsbD i <;> cases t.high.getLsbD i <;> decide

theorem Candidate.hincr {left t : ℕ} (h : Candidate C ctx start stop m) (hstart : start ≤ t)
    (hstop : t + left ≤ stop) (hstate : stop ≤ 729) :
    Candidate C ctx start stop (ptritHincr C left t m).2 := by
  induction left generalizing t m with
  | zero => exact h
  | succ left ih =>
    have hstep : Candidate C ctx start stop (Function.update m t (hincrStep C (m t)).1) := by
      refine h.written (fun k hk hk' i hi => ?_) fun k hk => ?_
      · by_cases hkt : k = t
        · subst hkt
          rw [Function.update_self]
          exact isTrit_hincrStep hi (h.trit i hi k (by omega))
        · rw [Function.update_of_ne hkt]
          exact h.trit i hi k (by omega)
      · exact Function.update_of_ne (by omega) _ _
    rw [ptritHincr]
    dsimp only
    split
    · exact hstep
    · exact ih hstep (by omega) (by omega)

theorem Candidate.search {rounds first : ℕ} (h : Candidate C ctx start stop m)
    (hfirst : start ≤ first) (hle : first ≤ stop) (hstate : stop ≤ 729) :
    Candidate C ctx start stop (searchState C first stop rounds m) := by
  induction rounds generalizing m with
  | zero => exact h
  | succ rounds ih => exact ih (h.hincr hfirst (by omega) hstate)

theorem Candidate.setSlice {src : List ℤ} (h : Candidate C ctx start stop m) (hi : i < n)
    (hsrc : Trits src) (hroom : start + src.length ≤ stop) (hstate : stop ≤ 729) :
    Candidate C ctx start stop (window start (fun range => ptritsSetSlice C range i src) m) := by
  refine h.written (fun k hk hk' j hj => ?_) fun k hk => ?_
  · rw [window, if_pos hk]
    by_cases hin : k - start < src.length
    · rw [ptritGet_setSlice hsrc hi hj hin]
      split
      · exact hsrc.getD _
      · rw [Nat.add_sub_cancel' hk]
        exact h.trit j hj k (by omega)
    · rw [ptritsSetSlice, if_neg hin, Nat.add_sub_cancel' hk]
      exact h.trit j hj k (by omega)
  · rw [window]
    split
    · next hle =>
      rw [ptritsSetSlice, if_neg (by omega), Nat.add_sub_cancel' hle]
    · rfl

/-- The lanes of a thread are set one after the other. -/
theorem Candidate.setIota {count : ℕ} {value : List ℤ} (h : Candidate C ctx start stop m)
    (hvalue : Trits value) (hroom : start + count ≤ stop) (hstate : stop ≤ 729) :
    Candidate C ctx start stop (ptritSetIota C count start m value).1 ∧
      Trits (ptritSetIota C count start m value).2 := by
  have hloop : ∀ (l : List ℕ) (m : ℕ → Ptrit n) (value : List ℤ), (∀ i ∈ l, i < n) →
      Candidate C ctx start stop m → Trits value →
      Candidate C ctx start stop (l.foldl (fun s i =>
        (window start (fun range => ptritsSetSlice C range i (s.2.take count)) s.1,
          tritsInc count s.2)) (m, value)).1 ∧
      Trits (l.foldl (fun s i =>
        (window start (fun range => ptritsSetSlice C range i (s.2.take count)) s.1,
          tritsInc count s.2)) (m, value)).2 := by
    intro l
    induction l with
    | nil => exact fun m value _ h hvalue => ⟨h, hvalue⟩
    | cons i l ih =>
      intro m value hl h hvalue
      have hfit : start + (value.take count).length ≤ stop :=
        le_trans (Nat.add_le_add_left (List.length_take_le _ _) start) hroom
      exact ih _ _ (fun j hj => hl j (List.mem_cons_of_mem i hj))
        (h.setSlice (hl i List.mem_cons_self) (hvalue.take count) hfit hstate)
        (trits_tritsInc hvalue)
  exact hloop _ m value (fun i hi => List.mem_range.mp hi) h hvalue

theorem candidate_instances {log3 procs : ℕ} {value : List ℤ} {inst : ℕ → Ptrit n}
    (h : Candidate C ctx start stop m) (hvalue : Trits value) (hroom : start + log3 ≤ stop)
    (hstate : stop ≤ 729) (hinst : inst ∈ instances C log3 start m procs value) :
    Candidate C ctx start stop inst := by
  induction procs generalizing value with
  | zero => exact absurd hinst List.not_mem_nil
  | succ procs ih =>
    obtain ⟨hset, hnext⟩ := h.setIota hvalue hroom hstate
    rcases List.mem_cons.mp hinst with rfl | hrest
    · exact hset
    · exact ih hnext hrest

/-- **Every thread begins with candidates.** -/
theorem candidate_initInst {procs : ℕ} {inst : ℕ → Ptrit n} (h : Candidate C ctx start stop m)
    (hle : start ≤ stop) (hstate : stop ≤ 729) (hinst : inst ∈ initInst C procs start stop m) :
    Candidate C ctx start stop inst := by
  have hlog3 : initLog3 n procs start stop ≤ stop - start := Nat.min_le_right _ _
  have hvalue : Trits (List.replicate 729 (-1 : ℤ)) := by
    intro t ht
    rw [List.eq_of_mem_replicate ht]
    decide
  have htake : ((List.replicate 729 (-1 : ℤ)).take
      (stop - (start + initLog3 n procs start stop))).length =
        stop - (start + initLog3 n procs start stop) := by
    rw [List.length_take, List.length_replicate]
    omega
  refine candidate_instances (h.written (fun k hk hk' i hi => ?_) fun k hk => ?_) hvalue (by omega)
    hstate hinst
  · rw [window]
    split
    · next hfirst =>
      rw [ptritsFill, if_pos (by omega), ptritGet_fill ((hvalue.take _).getD _) hi]
      exact (hvalue.take _).getD _
    · exact h.trit i hi k (by omega)
  · rw [window]
    split
    · next hfirst => rw [ptritsFill, if_neg (by omega), Nat.add_sub_cancel' hfirst]
    · rfl

/-- A lane of a candidate is the state with the trits of the lane put into it. -/
theorem Candidate.lane (h : Candidate C ctx start stop m) (hi : i < n) (hle : start ≤ stop)
    (hstate : stop ≤ 729) :
    Lane C i m
      (putTrits ctx start (ptritsGetSlice C (stop - start) (fun k => m (start + k)) i)) := by
  have hlen := ctx.length_trits
  have hcount := length_ptritsGetSlice (C := C) (stop - start) (fun k => m (start + k)) i
  intro k hk
  rw [putTrits, dif_pos (by omega)]
  dsimp only
  rw [List.getD_eq_getElem?_getD, getElem?_blit (by omega), hcount]
  split
  · next hin =>
    rw [← List.getD_eq_getElem?_getD, getD_ptritsGetSlice _ _ (by omega), Nat.add_sub_cancel' hin.1]
  · rw [← List.getD_eq_getElem?_getD]
    exact h.kept i hi k hk (by omega)

/-! ## The test -/

theorem getLsbD_foldl_and (f : ℕ → BitVec n) (l : List ℕ) (acc : BitVec n) :
    (l.foldl (fun t k => t &&& f k) acc).getLsbD i =
      (acc.getLsbD i && l.all fun k => (f k).getLsbD i) := by
  induction l generalizing acc with
  | nil => exact (Bool.and_true _).symm
  | cons k l ih => rw [List.foldl_cons, ih, BitVec.getLsbD_and, List.all_cons, Bool.and_assoc]

theorem getLsbD_foldl_or (f : ℕ → BitVec n) (l : List ℕ) (acc : BitVec n) :
    (l.foldl (fun t k => t ||| f k) acc).getLsbD i =
      (acc.getLsbD i || l.any fun k => (f k).getLsbD i) := by
  induction l generalizing acc with
  | nil => exact (Bool.or_false _).symm
  | cons k l ih => rw [List.foldl_cons, ih, BitVec.getLsbD_or, List.any_cons, Bool.or_assoc]

/-- The words of one place tell whether the trit in a lane is a zero. -/
theorem zero_andn {t : Ptrit n} :
    (t.low &&& t.high).getLsbD i = true ↔ ptritGet .andn t i = 0 := by
  rw [BitVec.getLsbD_and, ptritGet]
  rcases t.low.getLsbD i <;> rcases t.high.getLsbD i <;> decide

theorem zero_orn {t : Ptrit n} (hi : i < n) :
    (~~~t.high ||| t.low).getLsbD i = false ↔ ptritGet .orn t i = 0 := by
  rw [BitVec.getLsbD_or, BitVec.getLsbD_not, decide_eq_true hi, ptritGet]
  rcases t.low.getLsbD i <;> rcases t.high.getLsbD i <;> decide

/-- The word has a bit for every lane whose trits are zeros. -/
theorem zeroLanes_iff {count first : ℕ} (hi : i < n) :
    (zeroLanes C count first m).getLsbD i = true ↔
      ∀ k < count, ptritGet C (m (first + k)) i = 0 := by
  rcases C with _ | _
  · rw [zeroLanes, getLsbD_foldl_and, BitVec.getLsbD_allOnes, decide_eq_true hi, Bool.true_and,
      List.all_eq_true]
    refine forall_congr' fun k => ?_
    rw [List.mem_range, zero_andn]
  · rw [zeroLanes, BitVec.getLsbD_not, decide_eq_true hi, Bool.true_and, getLsbD_foldl_or,
      BitVec.getLsbD_zero, Bool.false_or, Bool.not_eq_true', List.any_eq_false]
    refine forall_congr' fun k => ?_
    rw [List.mem_range, Bool.not_eq_true, zero_orn hi]

/-- What the test gives is a lane with enough zeros. -/
theorem hashcashTest_spec {mwm index : ℕ} (h : hashcashTest C mwm m = some index) :
    index < n ∧ ∀ k < mwm, ptritGet C (m (243 - mwm + k)) index = 0 := by
  unfold hashcashTest ptritsFindZeroSlice at h
  dsimp only at h
  split at h
  · exact absurd h (Option.some_ne_none index).symm
  · next hne =>
    rcases hfind : (List.range n).find? fun i => (zeroLanes C mwm (243 - mwm) m).getLsbD i with
      _ | first
    · rw [hfind] at hne
      exact absurd rfl hne
    · rw [hfind] at h
      obtain rfl : first = index := Option.some.inj h
      have hlt : first < n := List.mem_range.mp (List.mem_of_find?_eq_some hfind)
      exact ⟨hlt, (zeroLanes_iff hlt).mp (List.find?_some hfind)⟩

/-- No zeros are asked for: the first lane of the first thread passes. -/
theorem hashcash_zero {type procs : ℕ} (hn : 0 < n) (hprocs : 0 < procs) :
    ∃ ctx', hashcash C L type n procs ctx start stop 0 (some (0, 0)) = some ctx' := by
  have hlane : ∀ m : ℕ → Ptrit n, hashcashTest C 0 m = some 0 := by
    intro m
    have hfind : (List.range n).find? (fun i => (zeroLanes C 0 (243 - 0) m).getLsbD i) =
        some 0 := by
      rw [List.find?_eq_some_iff_append]
      refine ⟨(zeroLanes_iff hn).mpr fun k hk => absurd hk (Nat.not_lt_zero k), [],
        (List.range n).tail, ?_, fun a ha => absurd ha List.not_mem_nil⟩
      obtain ⟨n, rfl⟩ := Nat.exists_eq_succ_of_ne_zero hn.ne'
      rw [List.range_succ_eq_map]
      rfl
    unfold hashcashTest ptritsFindZeroSlice
    rw [hfind, Option.getD_some, if_neg hn.ne']
  obtain ⟨procs, rfl⟩ := Nat.exists_eq_succ_of_ne_zero hprocs.ne'
  unfold hashcash pdSearch
  simp only [Option.bind_eq_bind, Option.bind_some, initInst, instances, List.getElem?_cons_zero,
    hlane]
  exact ⟨_, rfl⟩

/-- **The state that is found**: trits are put into the stretch, and the transformation of what is
there then ends in zeros. -/
theorem hashcash_spec {type procs mwm : ℕ} {found : Option (ℕ × ℕ)} {ctx' : CurlState}
    (h3 : 3 ∣ type) (hctx : Trits ctx.trits) (hle : start ≤ stop) (hstate : stop ≤ 729)
    (hmwm : mwm ≤ 243) (h : hashcash C L type n procs ctx start stop mwm found = some ctx') :
    ∃ nonce, Trits nonce ∧ nonce.length = stop - start ∧ ctx' = putTrits ctx start nonce ∧
      Trits ctx'.trits ∧
      ∀ k < mwm, ((curlP type).transform ctx').trits.getD (243 - mwm + k) 0 = 0 := by
  unfold hashcash pdSearch at h
  simp only [Option.bind_eq_bind, Option.bind_eq_some_iff, Option.pure_def, Option.some.injEq] at h
  obtain ⟨⟨thread, rounds⟩, -, inst, hinst, index, htest, rfl⟩ := h
  obtain ⟨hindex, hzeros⟩ := hashcashTest_spec htest
  have hlog3 : initLog3 n procs start stop ≤ stop - start := Nat.min_le_right _ _
  have hbegin := candidate_initInst (n := n) (C := C) (candidate_fill hctx) hle hstate
    (List.mem_of_getElem? hinst)
  have hcand : Candidate C ctx start stop
      (searchState C (start + initLog3 n procs start stop) stop rounds inst) :=
    hbegin.search (by omega) (by omega) hstate
  have hlane := hcand.lane hindex hle hstate
  have hnonce : Trits (ptritsGetSlice C (stop - start) (fun k =>
      searchState C (start + initLog3 n procs start stop) stop rounds inst (start + k)) index) := by
    intro t ht
    obtain ⟨k, hk, rfl⟩ := List.mem_map.mp ht
    exact hcand.trit index hindex _ (by have := List.mem_range.mp hk; omega)
  have htrits : Trits (putTrits ctx start (ptritsGetSlice C (stop - start) (fun k =>
      searchState C (start + initLog3 n procs start stop) stop rounds inst (start + k))
        index)).trits := by
    rw [putTrits]
    split
    · exact trits_append.mpr ⟨trits_append.mpr ⟨hctx.take start, hnonce⟩, hctx.drop _⟩
    · exact hctx
  refine ⟨_, hnonce, length_ptritsGetSlice _ _ _, rfl, htrits, fun k hk => ?_⟩
  have hout := parallels_pcurl C L n h3 index hindex _ _ htrits hlane (243 - mwm + k) (by omega)
  rw [← hout]
  exact hzeros k hk

end Lanes

end Parallel

end Entangled
