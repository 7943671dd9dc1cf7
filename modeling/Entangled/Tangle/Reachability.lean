import Entangled.Tangle.Bundle
import Entangled.Tangle.Traversal
/-!
# What a walk calls its function on

Both walks for any function of the caller that decides where to branch and where to stop, and may
remember what it likes. The calls are recorded. A walk that was never stopped has called the
function once on each hash that can be reached without entering an analyzed one, following the
approvees, or the approvers, of the hashes the function branched on; and has analyzed these.

A hash without a row is called as well, with a pack that is empty. Its approvees would be those of
the row that was loaded before, so a function of the walk to the past must not branch there.
-/

namespace Entangled

open Prog Search

variable {Hash : Type} [DecidableEq Hash] [HashBytes Hash] {δ : Type}

/-- What the function of the caller decides, and what it remembers. -/
structure Decision (δ : Type) where
  data : δ
  shouldBranch : Bool
  shouldStop : Bool

/-- `tangle_traversal_functor`, which may fail with a code of its own. -/
abbrev TraversalFunctor (Hash : Type) (δ : Type) :=
  Hash → Pack Hash → δ → Except { e : Retcode // e ≠ .outOfRounds } (Decision δ)

/-- A call of the function: the row that was loaded, if there was one, and what was decided. -/
structure Call (Hash : Type) where
  hash : Hash
  row : Option (Transaction Hash)
  branch : Bool
  stop : Bool

/-- The row a function that looks at the count finds in the pack. -/
def Pack.row (p : Pack Hash) : Option (Transaction Hash) := if p.loaded then p.model else none

namespace Walk

/-- The function of the caller, its calls recorded. -/
def recorded (func : TraversalFunctor Hash δ) (h : Hash) (analyzed : List Hash) :
    WalkM Hash (δ × List (Call Hash)) (Verdict Hash) := fun w =>
  match func h w.pack w.data.1 with
  | .error e => .error e.1 w
  | .ok d =>
    .ok ⟨d.shouldBranch, d.shouldStop, analyzed⟩ { w with
      data := (d.data, w.data.2 ++ [⟨h, w.pack.row, d.shouldBranch, d.shouldStop⟩]) }

end Walk

/-- Trunk and branch of a stored transaction. -/
def Tangle.approvees (t : Tangle Hash) (h : Hash) : List Hash :=
  match t.transactions.find? h with
  | some tx => [tx.trunk, tx.branch]
  | none => []

/-- The edges out of the hashes that were branched on. -/
def through (succ : Hash → List Hash) (calls : List (Call Hash)) (h : Hash) : List Hash :=
  if ∃ c ∈ calls, c.hash = h ∧ c.branch = true then succ h else []

/-- **The calls of a walk are the reachable hashes**, each called once and with its row, and they are
what the walk has analyzed. -/
structure ExactVisit (t : Tangle Hash) (succ : Hash → List Hash) (blocked : List Hash)
    (entryPoint : Hash) (calls : List (Call Hash)) (seen : List Hash) : Prop where
  once : (calls.map Call.hash).Nodup
  reachable : ∀ x, x ∈ calls.map Call.hash ↔ Reach (through succ calls) blocked entryPoint x
  rows : ∀ c ∈ calls, c.row = t.transactions.find? c.hash
  analyzed : seen = blocked ++ calls.map Call.hash

namespace Walk

variable {func : TraversalFunctor Hash δ} {h : Hash} {analyzed : List Hash}
  {w w' : Walk Hash (δ × List (Call Hash))} {v : Verdict Hash}

omit [DecidableEq Hash] in
/-- What a call leaves behind. -/
theorem recorded_ok (hr : recorded func h analyzed w = .ok v w') :
    w'.tangle = w.tangle ∧ w'.pack = w.pack ∧ v.analyzed = analyzed ∧
      w'.data.2 = w.data.2 ++ [⟨h, w.pack.row, v.shouldBranch, v.shouldStop⟩] := by
  unfold recorded at hr
  split at hr
  · cases hr
  · cases hr
    exact ⟨rfl, rfl, rfl, rfl⟩

omit [DecidableEq Hash] in
theorem recorded_visitor (func : TraversalFunctor Hash δ) : Visitor (recorded func) where
  keeps h analyzed := by
    refine keeps_iff.mpr ⟨fun w v w' hr => ?_, fun w e w' hr => ?_⟩
    · rw [OnTangle, (recorded_ok hr).1]
      exact .refl _
    · unfold recorded at hr
      split at hr
      · cases hr
        exact Tangle.SameCore.refl _
      · cases hr
  pack hr := (recorded_ok hr).2.1
  grows hr y hy := by rwa [(recorded_ok hr).2.2.1]
  rounds := by
    intro h analyzed w w' hr
    unfold recorded at hr
    split at hr
    · rename_i e _
      exact e.2 (EStateM.Result.error.inj hr).1
    · cases hr

/-! ## A round -/

/-- What a round of either walk does when it does not stop: one more call, and the successors of
its hash on the stack if the function branched, as long as the call is `Proper`. -/
structure Round (t : Tangle Hash) (succ : Hash → List Hash) (Proper : Call Hash → Prop) (h : Hash)
    (seen : List Hash) (w w' : Walk Hash (δ × List (Call Hash))) (r : Visit Hash) (c : Call Hash) :
    Prop where
  same : Tangle.SameTables t w'.tangle
  calls : w'.data.2 = w.data.2 ++ [c]
  hash : c.hash = h
  row : c.row = t.transactions.find? h
  stop : c.stop = r.stop
  seen : r.stop = false → r.seen = hashSetAdd seen h
  next : r.stop = false → Proper c → r.next = if c.branch then succ h else []

/-- What a walk has done so far, unless it made a call that is not `Proper`. -/
structure Recorded (t : Tangle Hash) (succ : Hash → List Hash) (Proper : Call Hash → Prop)
    (blocked : List Hash) (entryPoint : Hash) (stack seen : List Hash)
    (w : Walk Hash (δ × List (Call Hash))) : Prop where
  same : Tangle.SameTables t w.tangle
  rows : ∀ c ∈ w.data.2, c.row = t.transactions.find? c.hash
  analyzed : seen = blocked ++ w.data.2.map Call.hash
  explored : (∀ c ∈ w.data.2, Proper c) →
    Explored (through succ w.data.2) blocked entryPoint stack (w.data.2.map Call.hash)

variable {t : Tangle Hash} {succ : Hash → List Hash} {Proper : Call Hash → Prop}
  {blocked stack seen : List Hash} {entryPoint : Hash} {calls : List (Call Hash)} {c : Call Hash}

omit [HashBytes Hash] in
theorem through_append (hx : h ≠ c.hash) :
    through succ (calls ++ [c]) h = through succ calls h := by
  unfold through
  refine if_congr ?_ rfl rfl
  refine ⟨?_, fun ⟨d, hd, hdec⟩ => ⟨d, List.mem_append_left _ hd, hdec⟩⟩
  rintro ⟨d, hd, rfl, hbr⟩
  rcases List.mem_append.mp hd with hd | hd
  · exact ⟨d, hd, rfl, hbr⟩
  · exact absurd (congrArg Call.hash (List.mem_singleton.mp hd)) hx

omit [HashBytes Hash] in
/-- The edges out of a hash that is called for the first time. -/
theorem through_append_self (hfresh : c.hash ∉ calls.map Call.hash) :
    through succ (calls ++ [c]) c.hash = if c.branch then succ c.hash else [] := by
  unfold through
  refine if_congr ?_ rfl rfl
  refine ⟨?_, fun hbr => ⟨c, by simp, rfl, hbr⟩⟩
  rintro ⟨d, hd, hhash, hbr⟩
  rcases List.mem_append.mp hd with hd | hd
  · exact absurd (hhash ▸ List.mem_map_of_mem hd) hfresh
  · exact List.mem_singleton.mp hd ▸ hbr

/-- **A round keeps the record.** -/
theorem Recorded.push {r : Visit Hash}
    (hw : Recorded t succ Proper blocked entryPoint (h :: stack) seen w) (hfresh : h ∉ seen)
    (hr : Round t succ Proper h seen w w' r c) (hstop : r.stop = false) :
    Recorded t succ Proper blocked entryPoint (r.next ++ stack) r.seen w' := by
  obtain rfl := hr.hash
  have hnot := hfresh
  rw [hw.analyzed, List.mem_append, not_or] at hnot
  refine ⟨hr.same, ?_, ?_, ?_⟩
  · rw [hr.calls]
    intro d hd
    rcases List.mem_append.mp hd with hd | hd
    · exact hw.rows d hd
    · rw [List.mem_singleton.mp hd, hr.row]
  · rw [hr.seen hstop, hashSetAdd_of_not_mem hfresh, hw.analyzed, hr.calls, List.map_append,
      List.append_assoc]
    rfl
  · intro hproper
    rw [hr.calls] at hproper ⊢
    have hc : Proper c := hproper c (by simp)
    have hnext : r.next = through succ (w.data.2 ++ [c]) c.hash := by
      rw [hr.next hstop hc, through_append_self hnot.2]
    have hexp : Explored (through succ (w.data.2 ++ [c])) blocked entryPoint _
        (w.data.2.map Call.hash) :=
      (hw.explored fun d hd => hproper d (List.mem_append_left _ hd)).relabel ?_ ?_
    · rw [List.map_append]
      refine hexp.push (fun hmem => ?_) (fun y hy => hnext ▸ hy) fun y hy =>
        ⟨c.hash, by simp, hnext ▸ hy⟩
      rcases List.mem_append.mp hmem with hmem | hmem
      · exact hnot.1 hmem
      · exact hnot.2 hmem
    · -- a hash that was not called had no edges
      intro x y hy
      by_cases hx : x = c.hash
      · rw [through, if_neg] at hy
        · cases hy
        · rintro ⟨d, hd, hdx, -⟩
          exact hnot.2 (hx ▸ hdx ▸ List.mem_map_of_mem hd)
      · rwa [through_append hx]
    · intro x hx
      refine through_append fun he => hnot.2 (he ▸ hx)

theorem Recorded.invariant {visit : Hash → List Hash → WalkM Hash (δ × List (Call Hash)) (Visit Hash)}
    (hvisit : ∀ {h seen w r w'}, Tangle.SameTables t w.tangle → visit h seen w = .ok r w' →
      ∃ c, Round t succ Proper h seen w w' r c) :
    Invariant visit fun stack seen w =>
      Recorded t succ Proper blocked entryPoint stack seen w where
  skip := by
    intro h stack seen w hw hmem
    exact { hw with explored := fun hp => (hw.explored hp).skip (hw.analyzed ▸ hmem) }
  push := by
    intro h stack seen w r w' hw hfresh hr hstop
    obtain ⟨c, hround⟩ := hvisit hw.same hr
    exact hw.push hfresh hround hstop

/-- What the load leaves in the pack for a function that looks at the count. -/
theorem row_of_loadPack (hsame : Tangle.SameTables t w.tangle)
    (hload : loadPack h w = .ok () w') :
    Tangle.SameTables t w'.tangle ∧ w'.data = w.data ∧
      w'.pack.row = t.transactions.find? h ∧
      (w'.pack.row ≠ none → w'.pack.model = t.transactions.find? h) := by
  obtain ⟨hs, hd, hp⟩ := loadPack_ok hload
  refine ⟨hsame.trans hs, hd, ?_⟩
  rw [hsame.transactions] at hp
  rw [hp]
  cases t.transactions.find? h with
  | none => exact ⟨rfl, fun hn => absurd rfl hn⟩
  | some tx => exact ⟨rfl, fun _ => rfl⟩

/-- A round of the walk to the past, whose function must not branch on an empty pack. -/
theorem round_visitPast {r : Visit Hash} (hsame : Tangle.SameTables t w.tangle)
    (hr : visitPast (recorded func) h seen w = .ok r w') :
    ∃ c, Round t t.approvees (fun c => c.branch = true → c.row ≠ none) h seen w w' r c := by
  cases hstop : r.stop with
  | true =>
    obtain ⟨w₁, v, hload, hfunc, hv⟩ := visitPast_stopped hr hstop
    obtain ⟨hs, hd, hrow, -⟩ := row_of_loadPack hsame hload
    obtain ⟨ht, -, -, hcalls⟩ := recorded_ok hfunc
    refine ⟨_, ht ▸ hs, hd ▸ hcalls, rfl, hrow, hv.trans hstop.symm, ?_, ?_⟩
    · intro hno
      rw [hstop] at hno
      cases hno
    · intro hno
      rw [hstop] at hno
      cases hno
  | false =>
    obtain ⟨w₁, v, hload, hfunc, hv, hseen, hnext⟩ := visitPast_ok hr hstop
    obtain ⟨hs, hd, hrow, hmodel⟩ := row_of_loadPack hsame hload
    obtain ⟨ht, hpack, han, hcalls⟩ := recorded_ok hfunc
    refine ⟨_, ht ▸ hs, hd ▸ hcalls, rfl, hrow, hv.trans hstop.symm, fun _ => han ▸ hseen,
      fun _ hproper => ?_⟩
    rcases hnext with ⟨hb, hn⟩ | ⟨tx, htx, hb, hn⟩
    · rw [hn, if_neg (by simp [hb])]
    · -- the buffer holds the row of this hash, not an older one
      rw [hpack, hmodel (hproper hb)] at htx
      rw [hn, if_pos hb, Tangle.approvees, htx]

/-- A round of the walk to the future. -/
theorem round_visitFuture {r : Visit Hash} (hsame : Tangle.SameTables t w.tangle)
    (hr : visitFuture (recorded func) h seen w = .ok r w') :
    ∃ c, Round t t.approvers (fun _ => True) h seen w w' r c := by
  obtain ⟨_, w₁, hload, hrest⟩ := bind_eq_ok.mp hr
  obtain ⟨v, w₂, hfunc, hrest⟩ := bind_eq_ok.mp hrest
  obtain ⟨hs, hd, hrow, -⟩ := row_of_loadPack hsame hload
  obtain ⟨ht, hpack, han, hcalls⟩ := recorded_ok hfunc
  cases hv : v.shouldStop with
  | true =>
    simp only [hv, if_true] at hrest
    cases hrest
    refine ⟨_, ht ▸ hs, hd ▸ hcalls, rfl, hrow, hv, ?_, ?_⟩ <;> exact fun hno => by cases hno
  | false =>
    simp only [hv, Bool.false_eq_true, if_false] at hrest
    obtain ⟨next, w₃, hpush, hrest⟩ := bind_eq_ok.mp hrest
    cases hrest
    obtain ⟨hs₃, -, hd₃, hn⟩ := pushApprovers_ok hpush
    have hs₂ : Tangle.SameTables t w₂.tangle := ht ▸ hs
    refine ⟨_, hs₂.trans hs₃, hd₃ ▸ hd ▸ hcalls, rfl, hrow, hv, fun _ => by rw [han], fun _ _ => ?_⟩
    rw [hn, Tangle.approvers_of_sameCore hs₂.sameCore]

theorem recorded_start (t : Tangle Hash) (d : δ) (succ : Hash → List Hash)
    (Proper : Call Hash → Prop) (blocked : List Hash) (entryPoint : Hash) :
    Recorded t succ Proper blocked entryPoint [entryPoint] blocked ⟨t, ⟨none, false⟩, (d, [])⟩ where
  same := .refl t
  rows c hc := by cases hc
  analyzed := (List.append_nil blocked).symm
  explored _ := .start

/-- **A finished search** that made only `Proper` calls and was never stopped. -/
theorem exactVisit_of_search {n : ℕ} {d : δ}
    {visit : Hash → List Hash → WalkM Hash (δ × List (Call Hash)) (Visit Hash)}
    (hvisit : ∀ {h seen w r w'}, Tangle.SameTables t w.tangle → visit h seen w = .ok r w' →
      ∃ c, Round t succ Proper h seen w w' r c)
    (hr : search visit .outOfRounds n [entryPoint] blocked ⟨t, ⟨none, false⟩, (d, [])⟩ =
      .ok seen w')
    (hgo : ∀ c ∈ w'.data.2, c.stop = false ∧ Proper c) :
    ExactVisit t succ blocked entryPoint w'.data.2 seen := by
  rcases search_run (Recorded.invariant hvisit) (recorded_start t d succ Proper blocked entryPoint)
    hr with hend | ⟨x, seen', u, r, ⟨stack, hu, -⟩, hx, hstop, -⟩
  · have hexp := hend.explored fun c hc => (hgo c hc).2
    exact ⟨hexp.nodup, fun x => hexp.mem_iff, hend.rows, hend.analyzed⟩
  · -- the call at which it stopped is in the record
    obtain ⟨c, hround⟩ := hvisit hu.same hx
    have hc : c ∈ w'.data.2 := by
      rw [hround.calls]
      simp
    have hbad := hround.stop.trans hstop
    rw [(hgo c hc).1] at hbad
    cases hbad

end Walk

/-- What a walk does for a function of the caller: it ends, with whatever the function returned, and
if it was never stopped and made only `Proper` calls these are the reachable hashes. -/
structure SearchesExactly (walk : WalkM Hash (δ × List (Call Hash)) (List Hash))
    (succ : Tangle Hash → Hash → List Hash) (Proper : Call Hash → Prop) (blocked : List Hash)
    (entryPoint : Hash) : Prop where
  ends : ∀ (d : δ) (t t' : Tangle Hash), Walk.run (d, []) walk t ≠ .error .outOfRounds t'
  exact : ∀ (d d' : δ) (t t' : Tangle Hash) (seen : List Hash) (calls : List (Call Hash)),
    Walk.run (d, []) walk t = .ok (seen, (d', calls)) t' →
    (∀ c ∈ calls, c.stop = false ∧ Proper c) →
    ExactVisit t (succ t) blocked entryPoint calls seen

/-- **Both walks are exact reachability searches**: to the past from the analyzed hashes and the
genesis, for a function that branches on stored transactions only, to the future from the analyzed
hashes. -/
theorem dfs_searchesExactly (func : TraversalFunctor Hash δ) (entryPoint genesis : Hash)
    (analyzed : List Hash) :
    SearchesExactly (Walk.dfsToPast (Walk.recorded func) entryPoint genesis analyzed)
        Tangle.approvees (fun c => c.branch = true → c.row ≠ none) (hashSetAdd analyzed genesis)
        entryPoint ∧
      SearchesExactly (Walk.dfsToFuture (Walk.recorded func) entryPoint analyzed)
        Tangle.approvers (fun _ => True) analyzed entryPoint := by
  refine ⟨⟨fun d t t' hbad => ?_, fun d d' t t' seen calls hr hgo => ?_⟩,
    ⟨fun d t t' hbad => ?_, fun d d' t t' seen calls hr hgo => ?_⟩⟩
  · obtain ⟨w, hw, -⟩ := Walk.run_eq_error.mp hbad
    exact Walk.dfsToPast_ne_outOfRounds (Walk.recorded_visitor func) rfl hw
  · obtain ⟨w, hw, hdata, -⟩ := Walk.run_eq_ok.mp hr
    obtain rfl : w.data.2 = calls := congrArg Prod.snd hdata
    exact Walk.exactVisit_of_search Walk.round_visitPast hw hgo
  · obtain ⟨w, hw, -⟩ := Walk.run_eq_error.mp hbad
    exact Walk.dfsToFuture_ne_outOfRounds (Walk.recorded_visitor func) hw
  · obtain ⟨w, hw, hdata, -⟩ := Walk.run_eq_ok.mp hr
    obtain rfl : w.data.2 = calls := congrArg Prod.snd hdata
    exact Walk.exactVisit_of_search Walk.round_visitFuture hw hgo

/-! ## A hash without a row -/

/-- One transaction, whose approvee is not there. -/
def danglingTangle : Tangle (Fin 256) where
  transactions := ⟨[plainTx 1 2 2 10 0 0 0], List.nodup_singleton _⟩
  milestones := ⟨Table.empty, nodup_noHash⟩
  faults := fun _ => []

/-- A function that branches where it finds a row. -/
def branchOnRow : TraversalFunctor (Fin 256) Unit := fun _ pack _ => .ok ⟨(), pack.loaded, false⟩

/-- **A hash that is not stored is called as well**, and a walk to the future leaves the genesis out
of what it analyzed. -/
theorem dfs_not_stored :
    (∃ (seen : List (Fin 256)) (calls : List (Call (Fin 256))) (t' : Tangle (Fin 256)),
      Walk.run ((), []) (Walk.dfsToPast (Walk.recorded branchOnRow) 1 0 []) danglingTangle =
        .ok (seen, ((), calls)) t' ∧
      (∀ c ∈ calls, c.stop = false) ∧
      ∃ c ∈ calls, danglingTangle.transactions.find? c.hash = none) ∧
    ∃ (seen : List (Fin 256)) (calls : List (Call (Fin 256))) (t' : Tangle (Fin 256)),
      Walk.run ((), []) (Walk.dfsToFuture (Walk.recorded branchOnRow) 1 []) danglingTangle =
        .ok (seen, ((), calls)) t' ∧
      (∀ c ∈ calls, c.stop = false) ∧ (0 : Fin 256) ∉ seen := by
  refine ⟨⟨_, _, _, rfl, ?_, ?_⟩, ⟨_, _, _, rfl, ?_, ?_⟩⟩
  · decide
  · decide
  · decide
  · decide

end Entangled
