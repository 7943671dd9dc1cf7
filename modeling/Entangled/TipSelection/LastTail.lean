import Entangled.TipSelection.Selection
/-!
# What a walk returns

`curr_tail_hash` points into the buffer of the candidates once the walk has moved. A selection that
gives up has left its last candidate there, and that is what is copied to the tip, although it was
rejected. Only a selection that had nothing to examine leaves the current tail where it is.

`LastAccepted` is what a walk is to return, and `randomWalkerRandomize_tip_iff` says when it does.
-/

namespace Entangled

open Prog

variable {Hash σ : Type} [DecidableEq Hash]

namespace WalkWorld

variable (E : Exponential) (alpha : ℚ) (W : WalkWorld Hash σ) (rounds : ℕ) (ep : Hash)

/-- A head of the walk from `s₀`, once the entry point was found valid. -/
def WalkHead (s₀ : WalkState Hash σ) (p : WalkPosition Hash × WalkState Hash σ) : Prop :=
  ∃ w, W.isValid ep s₀.world = .ok true w ∧
    Loop.Head (walkTurn E alpha W rounds ep) (⟨false, none⟩, { s₀ with world := w }) p

/-- The walk stands on `tail`, and the selection of its next tail gives up. -/
def GivesUp (p : WalkPosition Hash × WalkState Hash σ) (tail : Hash) (buffer : Option Hash)
    (s' : WalkState Hash σ) : Prop :=
  p.1.currTailHash ep = some tail ∧
    randomWalkerSelectApproverTail E alpha W rounds tail p.1.approverTailHash p.2 =
      .ok (buffer, false) s'

/-- **The tail accepted last**: the validator found it valid, and the walk gave up on it. -/
def LastAccepted (s₀ : WalkState Hash σ) (tip : Hash) : Prop :=
  (∃ w w', W.isValid tip w = .ok true w') ∧
    ∃ p buffer s', WalkHead E alpha W rounds ep s₀ p ∧ GivesUp E alpha W rounds ep p tip buffer s'

/-- The selection on `tail` rejects its last candidate, which is `c` by then. -/
def RejectsLast (p : WalkPosition Hash × WalkState Hash σ) (tail c : Hash) : Prop :=
  ∃ q q', Loop.Head (selectTurn E alpha W tail) (p.1.approverTailHash, p.2) q ∧
    Loop.Iter (selectTurn E alpha W tail) q q' ∧ q'.1 = some c ∧ q'.2.cw.approversOf tail = []

variable {E alpha W rounds ep} {s₀ s' : WalkState Hash σ} {tip tail c : Hash}
  {p q : WalkPosition Hash × WalkState Hash σ} {buffer : Option Hash}

/-! ## One turn of the walk -/

omit [DecidableEq Hash] in
theorem readTail_eq_ok {w : WalkPosition Hash} {s : WalkState Hash σ} :
    readTail ep w s = .ok tail s' ↔ w.currTailHash ep = some tail ∧ s' = s := by
  unfold readTail
  cases w.currTailHash ep with
  | none => exact iff_of_false (fun h => by cases h) fun h => by cases h.1
  | some h =>
    constructor
    · intro hr
      cases hr
      exact ⟨rfl, rfl⟩
    · rintro ⟨hh, rfl⟩
      cases hh
      rfl

/-- The turn that leaves copies what the buffer was left with, once the walk has moved. -/
theorem walkTurn_done : walkTurn E alpha W rounds ep p.1 p.2 = .ok (.done tip) s' ↔
    ∃ tail buffer, GivesUp E alpha W rounds ep p tail buffer s' ∧
      WalkPosition.currTailHash { p.1 with approverTailHash := buffer } ep = some tip := by
  unfold walkTurn
  constructor
  · intro h
    obtain ⟨tail, s₁, hread, hrest⟩ := bind_eq_ok.mp h
    obtain ⟨htail, rfl⟩ := readTail_eq_ok.mp hread
    obtain ⟨r, s₂, hsel, hend⟩ := bind_eq_ok.mp hrest
    obtain ⟨buffer, hasApproverTail⟩ := r
    cases hasApproverTail with
    | true => cases hend
    | false =>
      obtain ⟨tip', s₃, hread', hret⟩ := bind_eq_ok.mp hend
      obtain ⟨htip, rfl⟩ := readTail_eq_ok.mp hread'
      cases hret
      exact ⟨tail, buffer, ⟨htail, hsel⟩, htip⟩
  · rintro ⟨tail, buffer, ⟨htail, hsel⟩, htip⟩
    have hread : readTail ep p.1 p.2 = .ok tail p.2 := readTail_eq_ok.mpr ⟨htail, rfl⟩
    refine (bind_apply_ok hread).trans ((bind_apply_ok hsel).trans ?_)
    exact bind_apply_ok (readTail_eq_ok.mpr ⟨htip, rfl⟩)

/-- A turn that goes on has moved to a tail that was found valid. -/
theorem iter_walkTurn (h : Loop.Iter (walkTurn E alpha W rounds ep) p q) :
    q.1.moved = true ∧ ∃ tail w, q.1.approverTailHash = some tail ∧
      W.isValid tail w = .ok true q.2.world := by
  obtain ⟨tail, s₁, -, hrest⟩ := bind_eq_ok.mp h
  obtain ⟨r, s₂, hsel, hend⟩ := bind_eq_ok.mp hrest
  obtain ⟨buffer, hasApproverTail⟩ := r
  cases hasApproverTail with
  | false =>
    obtain ⟨tip', s₃, -, hret⟩ := bind_eq_ok.mp hend
    cases hret
  | true =>
    rcases selectApproverTail_ok hsel with ⟨-, tail', w, hbuf, hvalid⟩ | ⟨habs, -⟩
    · have hq : q = (⟨true, buffer⟩, s₂) := by
        have hend' : (EStateM.Result.ok (.again ⟨true, buffer⟩) s₂ :
            EStateM.Result TipRetcode (WalkState Hash σ) (Loop.Turn (WalkPosition Hash) Hash)) =
              .ok (.again q.1) q.2 := hend
        injection hend' with hturn hstate
        injection hturn with hpos
        exact Prod.ext hpos.symm hstate.symm
      rw [hq]
      exact ⟨rfl, tail', w, hbuf, hvalid⟩
    · cases habs

/-- **Where the walk stands was found valid.** -/
theorem WalkHead.valid (h : WalkHead E alpha W rounds ep s₀ p) :
    ∃ tail w w', p.1.currTailHash ep = some tail ∧ W.isValid tail w = .ok true w' := by
  obtain ⟨w, hw, hhead⟩ := h
  refine hhead.invariant (I := fun p => ∃ tail w w', p.1.currTailHash ep = some tail ∧
    W.isValid tail w = .ok true w') ⟨ep, s₀.world, w, rfl, hw⟩ fun p q _ _ hpq => ?_
  obtain ⟨hmoved, tail, w', hbuf, hvalid⟩ := iter_walkTurn hpq
  refine ⟨tail, w', _, ?_, hvalid⟩
  rw [WalkPosition.currTailHash, if_pos hmoved, hbuf]

/-! ## What a selection that gives up leaves -/

theorem GivesUp.run (h : GivesUp E alpha W rounds ep p tail buffer s')
    (hne : p.2.cw.approversOf tail ≠ []) :
    Loop.run (selectTurn E alpha W tail) (.of .outOfRounds) rounds p.1.approverTailHash p.2 =
      .ok (buffer, false) s' := by
  have hsel := h.2
  rw [randomWalkerSelectApproverTail, gets_bind] at hsel
  dsimp only [id] at hsel
  split at hsel
  · exact hsel
  · rename_i hkey
    refine absurd ?_ hne
    rw [CwCalcResult.approversOf, Table.find?_eq_none_iff.mpr hkey]
    rfl

/-- Without approvers the buffer is left alone. -/
theorem GivesUp.buffer_of_nil (h : GivesUp E alpha W rounds ep p tail buffer s')
    (hnil : p.2.cw.approversOf tail = []) : buffer = p.1.approverTailHash := by
  have hsel := h.2
  rw [randomWalkerSelectApproverTail, gets_bind] at hsel
  dsimp only [id] at hsel
  split at hsel
  · have hdone : selectTurn E alpha W tail p.1.approverTailHash p.2 =
        .ok (.done (p.1.approverTailHash, false)) p.2 := by
      exact (selectTurn_eq_ok (p := (p.1.approverTailHash, p.2))).mpr (.inl ⟨hnil, rfl, rfl⟩)
    cases rounds with
    | zero => cases hsel
    | succ n =>
      rw [Loop.run_of_done hdone] at hsel
      cases hsel
      rfl
  · cases hsel
    rfl

/-- Otherwise it holds the last candidate. -/
theorem GivesUp.rejectsLast (h : GivesUp E alpha W rounds ep p tail buffer s')
    (hne : p.2.cw.approversOf tail ≠ []) :
    ∃ c, RejectsLast E alpha W p tail c ∧ buffer = some c := by
  obtain ⟨q, hq, hdone⟩ := Loop.run_eq_ok (h.run hne)
  rcases selectTurn_eq_ok.mp hdone with ⟨hnil, hturn, -⟩ | ⟨a, s, r, s₁, -, -, hend⟩
  · cases hturn
    -- the iteration before the last head left its candidate in the buffer
    rcases Relation.ReflTransGen.cases_tail hq with heq | ⟨q', hq', hit⟩
    · rw [heq] at hnil
      exact absurd hnil hne
    · obtain ⟨a, s, r, s₁, hd, hfind, hend⟩ :=
        (selectTurn_eq_ok.mp hit).resolve_left fun habs => by cases habs.2.1
      rcases hend with ⟨-, habs, -⟩ | ⟨-, hturn, -⟩
      · cases habs
      · injection hturn with hbuf
        exact ⟨r.1, ⟨q', q, hq', hit, hbuf, hnil⟩, hbuf⟩
  · rcases hend with ⟨-, habs, -⟩ | ⟨-, habs, -⟩
    · cases habs
    · cases habs

/-- There is one last candidate. -/
theorem RejectsLast.holds (hc : RejectsLast E alpha W p tail c)
    (h : GivesUp E alpha W rounds ep p tail buffer s') : buffer = some c := by
  obtain ⟨q, q', hq, hit, hbuf, hnil⟩ := hc
  have hdone : selectTurn E alpha W tail q'.1 q'.2 = .ok (.done (q'.1, false)) q'.2 :=
    selectTurn_eq_ok.mpr (.inl ⟨hnil, rfl, rfl⟩)
  -- with no approvers from the start there would be no iteration
  have hne : p.2.cw.approversOf tail ≠ [] := by
    intro hp
    have hfirst : selectTurn E alpha W tail p.1.approverTailHash p.2 =
        .ok (.done (p.1.approverTailHash, false)) p.2 :=
      (selectTurn_eq_ok (p := (p.1.approverTailHash, p.2))).mpr (.inl ⟨hp, rfl, rfl⟩)
    obtain rfl := hq.eq_of_leaves hfirst
    have habs := hfirst.symm.trans hit
    injection habs with hturn
    cases hturn
  obtain ⟨r, hr, hdone'⟩ := Loop.run_eq_ok (h.run hne)
  have hhead : Loop.Head (selectTurn E alpha W tail) (p.1.approverTailHash, p.2) q' := hq.tail hit
  -- both heads are the one at which the loop is left
  obtain rfl := hhead.eq_of_done hr hdone hdone'
  have hres := hdone.symm.trans hdone'
  injection hres with hturn
  injection hturn with hpair
  injection hpair with hb
  rw [← hb, hbuf]

/-! ## The tip -/

/-- A selection that gives up ends the walk. -/
theorem GivesUp.ends (h : GivesUp E alpha W rounds ep p tail buffer s') :
    ∃ tip, walkTurn E alpha W rounds ep p.1 p.2 = .ok (.done tip) s' := by
  suffices htip : ∃ tip,
      WalkPosition.currTailHash { p.1 with approverTailHash := buffer } ep = some tip by
    obtain ⟨tip, htip⟩ := htip
    exact ⟨tip, walkTurn_done.mpr ⟨tail, buffer, h, htip⟩⟩
  have hcurr := h.1
  cases hm : p.1.moved with
  | false => exact ⟨ep, by rw [WalkPosition.currTailHash, if_neg (by simp [hm])]⟩
  | true =>
    -- the buffer was written when the walk moved, and maybe again since
    rw [WalkPosition.currTailHash, if_pos hm] at hcurr
    rw [WalkPosition.currTailHash, if_pos (by simp [hm])]
    by_cases hnil : p.2.cw.approversOf tail = []
    · exact ⟨tail, by rw [h.buffer_of_nil hnil, hcurr]⟩
    · obtain ⟨c, -, hc⟩ := h.rejectsLast hnil
      exact ⟨c, hc⟩

/-- The walk gives up once. -/
theorem WalkHead.unique (hp : WalkHead E alpha W rounds ep s₀ p)
    (hq : WalkHead E alpha W rounds ep s₀ q) {tail' : Hash} {buffer' : Option Hash}
    {s'' : WalkState Hash σ} (h : GivesUp E alpha W rounds ep p tail buffer s')
    (h' : GivesUp E alpha W rounds ep q tail' buffer' s'') : q = p ∧ tail' = tail := by
  obtain ⟨w, hw, hp⟩ := hp
  obtain ⟨w', hw', hq⟩ := hq
  have hww := hw.symm.trans hw'
  injection hww with _ hworld
  subst hworld
  -- to give up is to leave the loop, which is done at one head
  obtain ⟨tip, hdone⟩ := h.ends
  obtain ⟨tip', hdone'⟩ := h'.ends
  obtain rfl := hq.eq_of_done hp hdone' hdone
  exact ⟨rfl, Option.some.inj (h'.1.symm.trans h.1)⟩

/-- Whether the buffer of the candidates, read for the current tail, still holds it. -/
theorem GivesUp.tip_eq_iff (h : GivesUp E alpha W rounds ep p tail buffer s')
    (htip : WalkPosition.currTailHash { p.1 with approverTailHash := buffer } ep = some tip) :
    tip = tail ↔ p.1.moved = false ∨ p.2.cw.approversOf tail = [] ∨
      RejectsLast E alpha W p tail tail := by
  have hcurr := h.1
  cases hm : p.1.moved with
  | false =>
    -- `curr_tail_hash` still points at the entry point
    rw [WalkPosition.currTailHash, if_neg (by simp [hm])] at htip hcurr
    exact iff_of_true (Option.some.inj (htip.symm.trans hcurr)) (.inl rfl)
  | true =>
    rw [WalkPosition.currTailHash, if_pos (by simp [hm])] at htip hcurr
    dsimp only at htip
    constructor
    · rintro rfl
      by_cases hnil : p.2.cw.approversOf tip = []
      · exact .inr (.inl hnil)
      · obtain ⟨c, hc, hbuf⟩ := h.rejectsLast hnil
        obtain rfl : c = tip := Option.some.inj (hbuf.symm.trans htip)
        exact .inr (.inr hc)
    · rintro (habs | hnil | hc)
      · cases habs
      · rw [h.buffer_of_nil hnil, hcurr] at htip
        exact (Option.some.inj htip).symm
      · rw [hc.holds h] at htip
        exact (Option.some.inj htip).symm

/-- **When a walk returns the tail it accepted last**: it never moved, or the tail it gives up on has
no approvers to examine, or the last candidate it examines there is that tail again. -/
theorem randomWalkerRandomize_tip_iff
    (hrun : randomWalkerRandomize E alpha W rounds ep s₀ = .ok tip s') :
    LastAccepted E alpha W rounds ep s₀ tip ↔
      ∀ p tail buffer s', WalkHead E alpha W rounds ep s₀ p →
        GivesUp E alpha W rounds ep p tail buffer s' →
          p.1.moved = false ∨ p.2.cw.approversOf tail = [] ∨
            RejectsLast E alpha W p tail tail := by
  obtain ⟨epIsValid, s₁, hvalid, hrest⟩ := bind_eq_ok.mp hrun
  obtain ⟨w, hw, rfl⟩ := zoom_eq_ok.mp hvalid
  cases epIsValid with
  | false => cases hrest
  | true =>
    obtain ⟨p, hhead, hdone⟩ := Loop.run_eq_ok hrest
    obtain ⟨tail, buffer, hgive, htip⟩ := walkTurn_done.mp hdone
    have hwalk : WalkHead E alpha W rounds ep s₀ p := ⟨w, hw, hhead⟩
    -- the tail that is given up on is the one that was accepted last
    have hlast : LastAccepted E alpha W rounds ep s₀ tip ↔ tip = tail := by
      constructor
      · rintro ⟨-, p', buffer', s'', hwalk', hgive'⟩
        exact (hwalk.unique hwalk' hgive hgive').2
      · rintro rfl
        obtain ⟨tail', x, y, hcurr, hxy⟩ := hwalk.valid
        obtain rfl : tail' = tip := Option.some.inj (hcurr.symm.trans hgive.1)
        exact ⟨⟨x, y, hxy⟩, p, buffer, s', hwalk, hgive⟩
    rw [hlast, hgive.tip_eq_iff htip]
    constructor
    · intro hcond p' tail' buffer' s'' hwalk' hgive'
      obtain ⟨rfl, rfl⟩ := hwalk.unique hwalk' hgive hgive'
      exact hcond
    · exact fun hcond => hcond p tail buffer s' hwalk hgive

/-! ## A rejected tip -/

theorem nodup_danglingTip : ([plainTx 1 0 0 10 0 0 0, plainTx 2 1 1 10 0 0 0,
    { plainTx 3 2 2 10 0 0 0 with solid := false }].map (·.hash)).Nodup := by decide

/-- The entry point 1 under the tail 2, which only 3 approves, and 3 is not solid. -/
def danglingTip : Tangle (Fin 256) where
  transactions := ⟨[plainTx 1 0 0 10 0 0 0, plainTx 2 1 1 10 0 0 0,
    { plainTx 3 2 2 10 0 0 0 with solid := false }], nodup_danglingTip⟩
  milestones := ⟨Table.empty, nodup_noHash⟩
  faults := fun _ => []

/-- The walk is about to start at 1. -/
def danglingState : WalkState (Fin 256) (ExitProbValidator (Fin 256) × Unit) :=
  { strayState with world := (ExitProbValidator.freshValidator danglingTip, ()) }

/-- The walk in its parts: the entry point is valid, 2 is stepped to, and 3 is rejected. -/
theorem dangling_steps : ∃ w s s', plainNode.isValid 1 danglingState.world = .ok true w ∧
    walkTurn flatExponential (1 / 1000) plainNode 9 1 ⟨false, none⟩
      { danglingState with world := w } = .ok (.again ⟨true, some 2⟩) s ∧
    s.cw.approversOf 2 = [3] ∧
    randomWalkerSelectApproverTail flatExponential (1 / 1000) plainNode 9 2 (some 2) s =
      .ok (some 3, false) s' := by
  have hrun : returns (do
      let epIsValid ← onWorld (plainNode.isValid 1)
      let turn ← walkTurn flatExponential (1 / 1000) plainNode 9 1 ⟨false, none⟩
      let approvers ← gets fun s => s.cw.approversOf 2
      let r ← randomWalkerSelectApproverTail flatExponential (1 / 1000) plainNode 9 2 (some 2)
      pure (epIsValid, turn, approvers, r)) danglingState
      (fun x _ => x.1 && decide (x.2.2 = ([3], some 3, false)) &&
        match x.2.1 with
        | .again p => p.moved && decide (p.approverTailHash = some 2)
        | .done _ => false) = true := by decide +kernel
  obtain ⟨x, s', hx, hcheck⟩ := of_returns hrun
  obtain ⟨epIsValid, s₁, hvalid, hrest⟩ := bind_eq_ok.mp hx
  obtain ⟨w, hw, rfl⟩ := zoom_eq_ok.mp hvalid
  obtain ⟨turn, s, hturn, hrest⟩ := bind_eq_ok.mp hrest
  rw [gets_bind] at hrest
  obtain ⟨r, s₂, hsel, hret⟩ := bind_eq_ok.mp hrest
  cases hret
  rw [Bool.and_eq_true, Bool.and_eq_true, decide_eq_true_eq] at hcheck
  obtain ⟨⟨htrue, hpair⟩, hpos⟩ := hcheck
  obtain ⟨happ, hr⟩ := Prod.mk.inj hpair
  cases turn with
  | done tip => cases hpos
  | again p =>
    rw [Bool.and_eq_true, decide_eq_true_eq] at hpos
    obtain ⟨moved, approver⟩ := p
    obtain ⟨rfl, rfl⟩ := hpos
    dsimp only at htrue hr
    subst htrue hr
    exact ⟨w, s, s', hw, hturn, happ, hsel⟩

theorem dangling_run : ∃ s',
    randomWalkerRandomize flatExponential (1 / 1000) plainNode 9 1 danglingState = .ok 3 s' := by
  have hrun : returns (randomWalkerRandomize flatExponential (1 / 1000) plainNode 9 1)
      danglingState (fun tip _ => decide (tip = 3)) = true := by decide +kernel
  obtain ⟨tip, s', hx, hcheck⟩ := of_returns hrun
  obtain rfl := of_decide_eq_true hcheck
  exact ⟨s', hx⟩

/-- The criterion on that walk. -/
theorem dangling_tip : ∃ s',
    randomWalkerRandomize flatExponential (1 / 1000) plainNode 9 1 danglingState = .ok 3 s' ∧
      (LastAccepted flatExponential (1 / 1000) plainNode 9 1 danglingState 3 ↔
        ∀ p tail buffer s', WalkHead flatExponential (1 / 1000) plainNode 9 1 danglingState p →
          GivesUp flatExponential (1 / 1000) plainNode 9 1 p tail buffer s' →
            p.1.moved = false ∨ p.2.cw.approversOf tail = [] ∨
              RejectsLast flatExponential (1 / 1000) plainNode p tail tail) := by
  obtain ⟨s', hrun⟩ := dangling_run
  exact ⟨s', hrun, randomWalkerRandomize_tip_iff hrun⟩

/-- **A rejected transaction is returned.** The walk steps from 1 to 2, rejects 3, which is not
solid, and returns it: the tail accepted last is 2. -/
theorem danglingTip_returned :
    (∃ s', randomWalkerRandomize flatExponential (1 / 1000) plainNode 9 1 danglingState =
      .ok 3 s') ∧
      LastAccepted flatExponential (1 / 1000) plainNode 9 1 danglingState 2 ∧
      ¬LastAccepted flatExponential (1 / 1000) plainNode 9 1 danglingState 3 := by
  obtain ⟨w, s, s', hw, hturn, happ, hsel⟩ := dangling_steps
  have hwalk : WalkHead flatExponential (1 / 1000) plainNode 9 1 danglingState
      (⟨true, some 2⟩, s) := ⟨w, hw, .single hturn⟩
  have hgive : GivesUp flatExponential (1 / 1000) plainNode 9 1 (⟨true, some 2⟩, s) 2 (some 3) s' :=
    ⟨rfl, hsel⟩
  refine ⟨dangling_run, ⟨?_, _, _, _, hwalk, hgive⟩, ?_⟩
  · obtain ⟨tail, x, y, hcurr, hxy⟩ := hwalk.valid
    obtain rfl : tail = 2 := (Option.some.inj hcurr).symm
    exact ⟨x, y, hxy⟩
  · rintro ⟨-, p, buffer, s'', hwalk', hgive'⟩
    exact absurd (hwalk.unique hwalk' hgive hgive').2 (by decide)

end WalkWorld

end Entangled
