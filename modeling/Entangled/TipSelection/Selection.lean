import Entangled.Ledger.Restart
import Entangled.TipSelection.Depth
import Entangled.TipSelection.Walker
/-!
# The end of a selection

A failed iteration of `random_walker_select_approver_tail` takes one hash out of the approver set:
what the buffer holds by then. That is the approver that was drawn unless the lookup found another
transaction to be its tail. In that case the approver stays, and can be drawn again.

`Draws` is a draw at the head of the loop, `Shrinks` an iteration that does what the loop relies on,
and `Stuck` a head at which it does not. `selectApproverTail_progress_iff` says that there is no
other way for the loop to go on and on.
-/

namespace Entangled

open Prog

variable {Hash σ : Type} [DecidableEq Hash]

namespace WalkWorld

variable (E : Exponential) (alpha : ℚ) (W : WalkWorld Hash σ) (curr : Hash)

/-- At the head `p` there are approvers, and `a` is drawn. -/
def Draws (p : Option Hash × WalkState Hash σ) (a : Hash) (s : WalkState Hash σ) : Prop :=
  p.2.cw.approversOf curr ≠ [] ∧ selectApprover E alpha W curr p.1 p.2 = .ok (some a) s

/-- The approver that was drawn is taken out of the set, which gets smaller. -/
def Shrinks (p q : Option Hash × WalkState Hash σ) : Prop :=
  ∃ a s, Draws E alpha W curr p a s ∧ a ∈ p.2.cw.approversOf curr ∧
    q.2.cw.approversOf curr = hashSetRemove (p.2.cw.approversOf curr) a ∧
    (q.2.cw.approversOf curr).length < (p.2.cw.approversOf curr).length

/-- The approver drawn at the head `p` has another transaction for its tail, which is not valid. -/
def Stuck (p : Option Hash × WalkState Hash σ) : Prop :=
  ∃ a s tail w w', Draws E alpha W curr p a s ∧ W.findTail a s.world = .ok (some tail) w ∧
    tail ≠ a ∧ W.isValid tail w = .ok false w'

/-- **What the loop is to do**: it ends, every failed iteration takes the rejected approver out of
the set, and it goes on until a valid tail is chosen or no approver is left. -/
structure Progresses (approver : Option Hash) (s : WalkState Hash σ) : Prop where
  ends : ∃ n, Loop.EndsWithin (selectTurn E alpha W curr) n (approver, s)
  shrinks : ∀ p q, Loop.Head (selectTurn E alpha W curr) (approver, s) p →
    Loop.Iter (selectTurn E alpha W curr) p q → Shrinks E alpha W curr p q
  result : ∀ rounds r s',
    randomWalkerSelectApproverTail E alpha W rounds curr approver s = .ok r s' →
      r.2 = true ∧ (∃ tail w, r.1 = some tail ∧ W.isValid tail w = .ok true s'.world) ∨
        r.2 = false ∧ s'.cw.approversOf curr = []

variable {E alpha W curr} {p q : Option Hash × WalkState Hash σ} {a tail : Hash}
  {s s' : WalkState Hash σ} {o approver : Option Hash} {r : Option Hash × Bool}

/-! ## One turn -/

theorem selectApprover_ok (h : selectApprover E alpha W curr approver s = .ok o s') :
    s'.cw = s.cw ∧ (s.cw.approversOf curr ≠ [] → ∃ a ∈ s.cw.approversOf curr, o = some a) := by
  unfold selectApprover at h
  cases hm : mapTransitionProbabilities E alpha s.cw (s.cw.approversOf curr) with
  | error e =>
    rw [hm] at h
    cases h
  | ok probs =>
    rw [hm] at h
    cases h
    refine ⟨rfl, fun hne => ?_⟩
    obtain ⟨a, ha, hdraw⟩ := draw_approver hne hm (W.probability s.world).1
    exact ⟨a, ha, by rw [hdraw]; rfl⟩

theorem Draws.mem (h : Draws E alpha W curr p a s) : a ∈ p.2.cw.approversOf curr := by
  obtain ⟨b, hb, heq⟩ := (selectApprover_ok h.2).2 h.1
  cases heq
  exact hb

theorem Draws.cw_eq (h : Draws E alpha W curr p a s) : s.cw = p.2.cw := (selectApprover_ok h.2).1

/-- What is drawn is determined. -/
theorem Draws.unique (h : Draws E alpha W curr p a s) {b : Hash}
    (h' : Draws E alpha W curr p b s') : b = a ∧ s' = s := by
  have heq := h.2.symm.trans h'.2
  injection heq with ho hs
  injection ho with hab
  exact ⟨hab.symm, hs.symm⟩

omit [DecidableEq Hash] in
theorem findTailIfValid_eq_ok {r : Hash × Bool} :
    findTailIfValid W a s = .ok r s' ↔
      (∃ w, W.findTail a s.world = .ok none w ∧ r = (a, false) ∧ s' = { s with world := w }) ∨
        ∃ tail w w' b, W.findTail a s.world = .ok (some tail) w ∧ W.isValid tail w = .ok b w' ∧
          r = (tail, b) ∧ s' = { s with world := w' } := by
  unfold findTailIfValid
  rw [bind_eq_ok]
  constructor
  · rintro ⟨o, s₁, hfind, hrest⟩
    obtain ⟨w, hw, rfl⟩ := zoom_eq_ok.mp hfind
    cases o with
    | none =>
      cases hrest
      exact .inl ⟨w, hw, rfl, rfl⟩
    | some tail =>
      obtain ⟨b, s₂, hvalid, hret⟩ := bind_eq_ok.mp hrest
      obtain ⟨w', hw', rfl⟩ := zoom_eq_ok.mp hvalid
      cases hret
      exact .inr ⟨tail, w, w', b, hw, hw', rfl, rfl⟩
  · rintro (⟨w, hw, rfl, rfl⟩ | ⟨tail, w, w', b, hw, hw', rfl, rfl⟩)
    · exact ⟨none, _, zoom_eq_ok.mpr ⟨w, hw, rfl⟩, rfl⟩
    · refine ⟨some tail, _, zoom_eq_ok.mpr ⟨w, hw, rfl⟩, ?_⟩
      exact bind_eq_ok.mpr ⟨b, _, zoom_eq_ok.mpr ⟨w', hw', rfl⟩, rfl⟩

/-- **A turn** of the selection: without approvers it leaves; else one is drawn, looked up and
judged. -/
theorem selectTurn_eq_ok {turn : Loop.Turn (Option Hash) (Option Hash × Bool)} :
    selectTurn E alpha W curr p.1 p.2 = .ok turn s' ↔
      (p.2.cw.approversOf curr = [] ∧ turn = .done (p.1, false) ∧ s' = p.2) ∨
        ∃ a s r s₁, Draws E alpha W curr p a s ∧ findTailIfValid W a s = .ok r s₁ ∧
          (r.2 = true ∧ turn = .done (some r.1, true) ∧ s' = s₁ ∨
            r.2 = false ∧ turn = .again (some r.1) ∧
              s' = { s₁ with cw := s₁.cw.removeApprover curr r.1 }) := by
  unfold selectTurn
  rw [gets_bind]
  dsimp only [id]
  by_cases hnil : p.2.cw.approversOf curr = []
  · rw [if_pos hnil]
    constructor
    · intro h
      cases h
      exact .inl ⟨hnil, rfl, rfl⟩
    · rintro (⟨-, rfl, rfl⟩ | ⟨a, s, r, s₁, hd, -⟩)
      · rfl
      · exact absurd hnil hd.1
  · rw [if_neg hnil]
    constructor
    · intro h
      right
      obtain ⟨o, s, hsel, hrest⟩ := bind_eq_ok.mp h
      obtain ⟨a, -, rfl⟩ := (selectApprover_ok hsel).2 hnil
      obtain ⟨r, s₁, hfind, hret⟩ := bind_eq_ok.mp hrest
      refine ⟨a, s, r, s₁, ⟨hnil, hsel⟩, hfind, ?_⟩
      cases hr : r.2 with
      | true =>
        rw [if_pos hr] at hret
        cases hret
        exact .inl ⟨rfl, rfl, rfl⟩
      | false =>
        rw [if_neg (by rw [hr]; decide)] at hret
        cases hret
        exact .inr ⟨rfl, rfl, rfl⟩
    · rintro (⟨hn, -⟩ | ⟨a, s, r, s₁, hd, hfind, hend⟩)
      · exact absurd hn hnil
      · refine (bind_apply_ok hd.2).trans ((bind_apply_ok hfind).trans ?_)
        rcases hend with ⟨hr, rfl, rfl⟩ | ⟨hr, rfl, rfl⟩
        · rw [if_pos hr]
          rfl
        · rw [if_neg (by rw [hr]; decide)]
          rfl

theorem length_hashSetRemove {l : List Hash} (h : a ∈ l) : (hashSetRemove l a).length < l.length :=
  List.length_filter_lt_length_iff_exists.mpr ⟨a, h, by simp⟩

/-- **A failed iteration** takes what the lookup left in the buffer out of the set. -/
theorem iter_selectTurn (h : Loop.Iter (selectTurn E alpha W curr) p q) :
    ∃ a s r s₁, Draws E alpha W curr p a s ∧ findTailIfValid W a s = .ok r s₁ ∧ r.2 = false ∧
      s₁.cw = p.2.cw ∧ q.2.cw.approversOf curr = hashSetRemove (p.2.cw.approversOf curr) r.1 := by
  rcases selectTurn_eq_ok.mp h with ⟨-, habs, -⟩ | ⟨a, s, r, s₁, hd, hfind, hend⟩
  · cases habs
  · rcases hend with ⟨-, habs, -⟩ | ⟨hr, hturn, hq⟩
    · cases habs
    · have hcw : s₁.cw = p.2.cw := by
        rw [← hd.cw_eq]
        rcases findTailIfValid_eq_ok.mp hfind with ⟨w, -, -, rfl⟩ | ⟨tail, w, w', b, -, -, -, rfl⟩
        · rfl
        · rfl
      refine ⟨a, s, r, s₁, hd, hfind, hr, hcw, ?_⟩
      rw [hq, ← hcw]
      exact CwCalcResult.approversOf_removeApprover

/-- An iteration from a head that is not stuck takes out what was drawn. -/
theorem shrinks_of_not_stuck (hit : Loop.Iter (selectTurn E alpha W curr) p q)
    (hno : ¬Stuck E alpha W curr p) : Shrinks E alpha W curr p q := by
  obtain ⟨a, s, r, s₁, hd, hfind, hr, -, hset⟩ := iter_selectTurn hit
  have hra : r.1 = a := by
    rcases findTailIfValid_eq_ok.mp hfind with ⟨w, -, rfl, -⟩ | ⟨tail, w, w', b, hw, hw', rfl, -⟩
    · rfl
    · -- a rejected tail other than the approver would be a stuck head
      by_contra hne
      cases hr
      exact hno ⟨a, s, tail, w, w', hd, hw, hne, hw'⟩
  rw [hra] at hset
  exact ⟨a, s, hd, hd.mem, hset, by rw [hset]; exact length_hashSetRemove hd.mem⟩

/-- A stuck head is gone round from, and what was drawn stays in the set. -/
theorem Stuck.iter (h : Stuck E alpha W curr p) :
    ∃ q, Loop.Iter (selectTurn E alpha W curr) p q ∧ ¬Shrinks E alpha W curr p q := by
  obtain ⟨a, s, tail, w, w', hd, hw, hne, hw'⟩ := h
  have hfind : findTailIfValid W a s = .ok (tail, false) { s with world := w' } :=
    findTailIfValid_eq_ok.mpr (.inr ⟨tail, w, w', false, hw, hw', rfl, rfl⟩)
  refine ⟨(some tail, _), selectTurn_eq_ok.mpr (.inr ⟨a, s, (tail, false), _, hd, hfind,
    .inr ⟨rfl, rfl, rfl⟩⟩), ?_⟩
  rintro ⟨b, s₂, hd', hb, hset, -⟩
  obtain ⟨rfl, rfl⟩ := hd.unique hd'
  -- what is taken out is the tail, and the approver stays
  dsimp only at hset
  rw [CwCalcResult.approversOf_removeApprover, hd.cw_eq] at hset
  have hmem : b ∈ hashSetRemove (p.2.cw.approversOf curr) tail :=
    mem_hashSetRemove.mpr ⟨hb, hne.symm⟩
  rw [hset] at hmem
  exact (mem_hashSetRemove.mp hmem).2 rfl

/-- A selection that returns has a tail that was found valid, or no approver left. -/
theorem selectApproverTail_ok {rounds : ℕ}
    (h : randomWalkerSelectApproverTail E alpha W rounds curr approver s = .ok r s') :
    r.2 = true ∧ (∃ tail w, r.1 = some tail ∧ W.isValid tail w = .ok true s'.world) ∨
      r.2 = false ∧ s'.cw.approversOf curr = [] := by
  rw [randomWalkerSelectApproverTail, gets_bind] at h
  dsimp only [id] at h
  split at h
  · obtain ⟨p, -, hdone⟩ := Loop.run_eq_ok h
    rcases selectTurn_eq_ok.mp hdone with ⟨hnil, hturn, rfl⟩ | ⟨a, s₂, r₂, s₁, -, hfind, hend⟩
    · cases hturn
      exact .inr ⟨rfl, hnil⟩
    · rcases hend with ⟨hr, hturn, rfl⟩ | ⟨-, habs, -⟩
      · cases hturn
        refine .inl ⟨rfl, ?_⟩
        rcases findTailIfValid_eq_ok.mp hfind with ⟨w, -, rfl, -⟩ |
          ⟨tail, w, w', b, -, hw', rfl, rfl⟩
        · cases hr
        · cases hr
          exact ⟨tail, w, rfl, hw'⟩
      · cases habs
  · -- a transaction without an entry has no approvers either
    rename_i hkey
    cases h
    refine .inr ⟨rfl, ?_⟩
    rw [CwCalcResult.approversOf, Table.find?_eq_none_iff.mpr hkey]
    rfl

/-- **When a selection makes progress**: just when it is never stuck. -/
theorem selectApproverTail_progress_iff (E : Exponential) (alpha : ℚ) (W : WalkWorld Hash σ)
    (curr : Hash) (approver : Option Hash) (s : WalkState Hash σ) :
    Progresses E alpha W curr approver s ↔
      ∀ p, Loop.Head (selectTurn E alpha W curr) (approver, s) p → ¬Stuck E alpha W curr p := by
  have hiff := Loop.progress_iff (fun p => (p.2.cw.approversOf curr).length)
    (fun p q (_ : Loop.Head (selectTurn E alpha W curr) (approver, s) p) _
      (hs : Shrinks E alpha W curr p q) => by obtain ⟨a, s, -, -, -, hlt⟩ := hs; exact hlt)
    (fun p _ hs => hs.iter) (fun p q _ hit hno => shrinks_of_not_stuck hit hno)
  constructor
  · intro h
    exact hiff.mp ⟨h.ends, h.shrinks⟩
  · intro hno
    obtain ⟨hend, hshrinks⟩ := hiff.mpr hno
    exact ⟨hend, hshrinks, fun rounds r s' => selectApproverTail_ok⟩

/-! ## A tail that is not solid -/

/-- A single approver is drawn whatever the random number is. -/
theorem draws_of_single {r : ℤ} (hone : p.2.cw.approversOf curr = [a])
    (hr : p.2.cw.rating a = some r) :
    Draws E alpha W curr p a { p.2 with world := (W.probability p.2.world).2 } := by
  have hne : p.2.cw.approversOf curr ≠ [] := by
    rw [hone]
    exact List.cons_ne_nil _ _
  obtain ⟨probs, hprobs⟩ : ∃ probs,
      mapTransitionProbabilities E alpha p.2.cw (p.2.cw.approversOf curr) = .ok probs := by
    unfold mapTransitionProbabilities
    rw [hone, List.mapM_cons, hr]
    exact ⟨_, rfl⟩
  obtain ⟨b, hb, hdraw⟩ := draw_approver hne hprobs (W.probability p.2.world).1
  rw [hone, List.mem_singleton] at hb
  subst hb
  refine ⟨hne, ?_⟩
  unfold selectApprover
  rw [hprobs]
  dsimp only
  rw [hdraw]
  rfl

/-- The exponential of a node whose approvers all weigh the same. -/
def flatExponential : Exponential := ⟨fun _ => 1, fun _ => one_pos⟩

/-- The world of a node that always draws the first approver. -/
def plainNode : WalkWorld (Fin 256) (ExitProbValidator (Fin 256) × Unit) :=
  node ExitProbValidator.plainTipConf plainSponge Ledger.quietLedger.initial
    Ledger.quietLedger.latest 1 fun u => (⟨0, probability_zero⟩, u)

theorem nodup_strayBundle : ([plainTx 1 0 0 10 0 0 0, plainTx 2 1 1 10 0 1 1,
    { plainTx 3 2 4 10 0 0 1 with solid := false }].map (·.hash)).Nodup := by decide

/-- A bundle of two over the entry point 1, whose tail 3 is not solid. -/
def strayBundle : Tangle (Fin 256) where
  transactions := ⟨[plainTx 1 0 0 10 0 0 0, plainTx 2 1 1 10 0 1 1,
    { plainTx 3 2 4 10 0 0 1 with solid := false }], nodup_strayBundle⟩
  milestones := ⟨Table.empty, nodup_noHash⟩
  faults := fun _ => []

theorem nodup_strayRatings :
    ([((1 : Fin 256), (3 : ℤ)), (2, 2), (3, 1)].map fun r => r.1).Nodup := by decide

theorem nodup_strayApprovers :
    ([.ofList 1 0 [2], .ofList 2 1 [3], .ofList 3 2 []].map
      fun e : IndexedHashSet (Fin 256) => e.hash).Nodup := by decide

/-- The walk is about to start at 1. -/
def strayState : WalkState (Fin 256) (ExitProbValidator (Fin 256) × Unit) where
  world := (ExitProbValidator.freshValidator strayBundle, ())
  cw := ⟨⟨[(1, 3), (2, 2), (3, 1)], nodup_strayRatings⟩,
    ⟨[.ofList 1 0 [2], .ofList 2 1 [3], .ofList 3 2 []], nodup_strayApprovers⟩⟩

theorem findTailIfValid_stray :
    findTailIfValid plainNode 2 strayState = .ok (3, false) strayState := by
  refine findTailIfValid_eq_ok.mpr (.inr ⟨3, strayState.world, strayState.world, false, ?_, ?_, rfl,
    rfl⟩)
  · rfl
  · rfl

/-- Taking the tail out of the approvers of 1 takes out nothing. -/
theorem removeApprover_stray : strayState.cw.removeApprover 1 3 = strayState.cw := by rfl

theorem draws_stray (b : Option (Fin 256)) :
    Draws flatExponential (1 / 1000) plainNode 1 (b, strayState) 2 strayState :=
  draws_of_single (by rfl) (by rfl)

theorem iter_stray (b : Option (Fin 256)) :
    Loop.Iter (selectTurn flatExponential (1 / 1000) plainNode 1) (b, strayState)
      (some 3, strayState) :=
  selectTurn_eq_ok.mpr (.inr ⟨2, strayState, (3, false), strayState, draws_stray b,
    findTailIfValid_stray, .inr ⟨rfl, rfl, by rw [removeApprover_stray]⟩⟩)

/-- **A rejected tail can hold up the walk for ever.** The one approver of 1 belongs to a bundle
whose tail is not solid: 2 is drawn, 3 is looked up, found invalid and taken out of a set that it
is not in. -/
theorem strayBundle_loops :
    (∀ n, ¬Loop.EndsWithin (selectTurn flatExponential (1 / 1000) plainNode 1) n
      (none, strayState)) ∧
    (∀ rounds, ∃ s, randomWalkerSelectApproverTail flatExponential (1 / 1000) plainNode rounds 1
      none strayState = .error (.of .outOfRounds) s) ∧
    ¬Progresses flatExponential (1 / 1000) plainNode 1 none strayState := by
  have hloops : ∀ n, ¬Loop.EndsWithin (selectTurn flatExponential (1 / 1000) plainNode 1) n
      (none, strayState) :=
    Loop.not_endsWithin_of_iter (I := fun p => p.2 = strayState)
      (fun p hp => by
        obtain ⟨b, s⟩ := p
        obtain rfl : s = strayState := hp
        exact ⟨_, iter_stray b, rfl⟩) rfl
  refine ⟨hloops, fun rounds => ?_, fun h => ?_⟩
  · have hkey : (1 : Fin 256) ∈ strayState.cw.txToApprovers.keys := by decide
    rw [randomWalkerSelectApproverTail, gets_bind]
    dsimp only [id]
    rw [if_pos hkey]
    exact Loop.run_of_not_endsWithin (hloops rounds)
  · obtain ⟨n, hn⟩ := h.ends
    exact hloops n hn

end WalkWorld

end Entangled
