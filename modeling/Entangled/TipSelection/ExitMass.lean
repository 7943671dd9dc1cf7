import Entangled.TipSelection.ExitMap
import Entangled.TipSelection.Selection
/-!
# The mass of the exit probabilities

Whatever order the queue comes to, a sum of the exit probabilities weighted by a function that is
harmonic away from the tips stays what it was (`Pending`). With the weight 1 everywhere that is
their total, and with the sum over the paths to a tip it is, once nothing is left elsewhere, the
probability of that tip.

A transaction is worth the number of paths from it, and a turn takes one from what the queue is
worth, however often a transaction stands in it.
-/

namespace Entangled

open Prog

variable {Hash σ : Type} [DecidableEq Hash]

/-- A sub-tangle as the cumulative weights leave it: approvers have an entry and a rating, and no
transaction approves itself by way of others. -/
structure ApproverDag (cw : CwCalcResult Hash) (ep : Hash) : Prop where
  entry : ep ∈ cw.txToApprovers.keys
  closed : ∀ x, ∀ a ∈ cw.approversOf x, a ∈ cw.txToApprovers.keys
  rated : ∀ x, ∀ a ∈ cw.approversOf x, ∃ r, cw.rating a = some r
  acyclic : ∀ x, ¬Relation.TransGen (fun a b => b ∈ cw.approversOf a) x x

namespace ExitMap

variable (E : Exponential) (alpha : ℚ) (cw : CwCalcResult Hash) (ep : Hash)

/-- The probability of stepping from a transaction to an approver. -/
def transition (x a : Hash) : ℚ :=
  match mapTransitionProbabilities E alpha cw (cw.approversOf x) with
  | .error _ => 0
  | .ok probs => (((cw.approversOf x).zip probs).lookup a).getD 0

/-- The weights that are kept along the way. -/
def Kept (h : Hash → ℚ) : Prop :=
  ∀ x, cw.approversOf x ≠ [] → Paths.Harmonic cw.approversOf (transition E alpha cw) h x

/-- The invariant of the queue: what is not on a tip waits in it, and no weight has changed. -/
structure Pending (p : List Hash × ExitProbs Hash) : Prop where
  queued : ∀ x ∈ p.1, x ∈ cw.txToApprovers.keys
  known : ∀ k ∈ p.2.exitProbs.keys, k ∈ cw.txToApprovers.keys
  waiting : ∀ k, p.2.exitProbs.value k ≠ 0 → cw.approversOf k ≠ [] → k ∈ p.1
  kept : ∀ h, Kept E alpha cw h → p.2.exitProbs.weighted h = h ep

/-- What a turn makes of the exit probabilities. -/
structure Passed (curr : Hash) (m m' : ProbMap Hash) : Prop where
  kept : ∀ h, (cw.approversOf curr ≠ [] →
    Paths.Harmonic cw.approversOf (transition E alpha cw) h curr) → m'.weighted h = m.weighted h
  settled : cw.approversOf curr ≠ [] → m'.value curr = 0
  others : ∀ k, k ≠ curr → k ∉ cw.approversOf curr → m'.value k = m.value k
  known : ∀ k ∈ m'.keys, k ∈ m.keys ∨ k ∈ cw.approversOf curr

/-- What the map comes to: nothing but on tips, 1 on all of these, and on each the sum over the
paths to it. -/
structure Exits (m : ProbMap Hash) : Prop where
  nonTip : ∀ k, k ∉ extractTips cw → m.value k = 0
  total : ((extractTips cw).map m.value).sum = 1
  tip : ∀ k ∈ extractTips cw,
    m.value k = Paths.pathSum cw.approversOf (transition E alpha cw) ep k

variable {E alpha cw ep} {curr : Hash} {rest : List Hash} {s : ExitProbs Hash}
  {p : List Hash × ExitProbs Hash}

/-! ## The sub-tangle -/

/-- What has approvers has an entry. -/
theorem mem_keys_of_approver {a b : Hash} (hb : b ∈ cw.approversOf a) :
    a ∈ cw.txToApprovers.keys := by
  by_contra hn
  rw [CwCalcResult.approversOf, Table.find?_eq_none_iff.mpr hn] at hb
  cases hb

/-- A sub-tangle in which approvers stand later in some order. -/
theorem approverDag_of_rank (rank : Hash → ℕ) (hentry : ep ∈ cw.txToApprovers.keys)
    (h : ∀ x ∈ cw.txToApprovers.keys, ∀ a ∈ cw.approversOf x,
      a ∈ cw.txToApprovers.keys ∧ (cw.rating a).isSome ∧ rank x < rank a) : ApproverDag cw ep where
  entry := hentry
  closed x a ha := (h x (mem_keys_of_approver ha) a ha).1
  rated x a ha := Option.isSome_iff_exists.mp (h x (mem_keys_of_approver ha) a ha).2.1
  acyclic x hx := by
    have hlt : ∀ y, Relation.TransGen (fun a b => b ∈ cw.approversOf a) x y → rank x < rank y := by
      intro y hy
      induction hy with
      | single hb => exact (h _ (mem_keys_of_approver hb) _ hb).2.2
      | tail _ hb ih => exact ih.trans (h _ (mem_keys_of_approver hb) _ hb).2.2
    exact lt_irrefl _ (hlt x hx)

/-- No chain of approvers goes on for ever. -/
theorem wellFounded_approvers (hd : ApproverDag cw ep) :
    WellFounded fun b a => b ∈ cw.approversOf a := by
  have hirrefl : Std.Irrefl fun b a => Relation.TransGen (fun a b => b ∈ cw.approversOf a) a b :=
    ⟨hd.acyclic⟩
  have htrans : IsTrans Hash fun b a => Relation.TransGen (fun a b => b ∈ cw.approversOf a) a b :=
    ⟨fun _ _ _ hab hbc => hbc.trans hab⟩
  have horder : IsStrictOrder Hash
    fun b a => Relation.TransGen (fun a b => b ∈ cw.approversOf a) a b := {}
  -- a strict order on finitely many has no infinite chain
  have hwf := (List.finite_toSet cw.txToApprovers.keys).wellFoundedOn
    (r := fun b a => Relation.TransGen (fun a b => b ∈ cw.approversOf a) a b)
  rw [Set.wellFoundedOn_iff] at hwf
  refine Subrelation.wf (fun {b a} hb => ?_) hwf
  exact ⟨.single hb, hd.closed a b hb, mem_keys_of_approver hb⟩

theorem mapM_isSome {α β : Type} {f : α → Option β} {l : List α}
    (h : ∀ a ∈ l, ∃ b, f a = some b) : ∃ r, l.mapM f = some r := by
  induction l with
  | nil => exact ⟨[], rfl⟩
  | cons a l ih =>
    obtain ⟨b, hb⟩ := h a List.mem_cons_self
    obtain ⟨r, hr⟩ := ih fun a ha => h a (List.mem_cons_of_mem _ ha)
    exact ⟨b :: r, by simp [hb, hr]⟩

theorem exists_probs (hd : ApproverDag cw ep) (x : Hash) :
    ∃ probs, mapTransitionProbabilities E alpha cw (cw.approversOf x) = .ok probs := by
  obtain ⟨ratings, hr⟩ := mapM_isSome (hd.rated x)
  unfold mapTransitionProbabilities
  rw [hr]
  exact ⟨_, rfl⟩

/-- Adding up over the approvers and the probabilities side by side. -/
theorem sum_zip {l : List Hash} {probs : List ℚ} (hnodup : l.Nodup)
    (hlen : probs.length = l.length) (h : Hash → ℚ) :
    ((l.zip probs).map fun r => r.2 * h r.1).sum =
      (l.map fun a => ((l.zip probs).lookup a).getD 0 * h a).sum := by
  induction l generalizing probs with
  | nil => rfl
  | cons a l ih =>
    obtain ⟨q, probs, rfl⟩ := List.exists_cons_of_length_eq_add_one hlen
    obtain ⟨hnot, hnodup⟩ := List.nodup_cons.mp hnodup
    rw [List.length_cons, List.length_cons, Nat.add_right_cancel_iff] at hlen
    have htail : ∀ x ∈ l, (((a :: l).zip (q :: probs)).lookup x).getD 0 * h x =
        ((l.zip probs).lookup x).getD 0 * h x := by
      intro x hx
      have hne : (x == a) = false := beq_eq_false_iff_ne.mpr fun he => hnot (he ▸ hx)
      rw [List.zip_cons_cons, List.lookup_cons, hne]
    rw [List.map_cons, List.sum_cons, List.map_congr_left htail, ← ih hnodup hlen]
    rw [List.zip_cons_cons, List.map_cons, List.sum_cons, List.lookup_cons, beq_self_eq_true]
    rfl

theorem sum_transition {probs : List ℚ}
    (h : mapTransitionProbabilities E alpha cw (cw.approversOf curr) = .ok probs)
    (g : Hash → ℚ) : (((cw.approversOf curr).zip probs).map fun r => r.2 * g r.1).sum =
      ((cw.approversOf curr).map fun a => transition E alpha cw curr a * g a).sum := by
  rw [sum_zip CwCalcResult.nodup_approversOf (mapTransitionProbabilities_ok h).1]
  unfold transition
  rw [h]

/-- What stands beside an approver is its probability. -/
theorem lookup_zip {l : List Hash} {probs : List ℚ} {a : Hash} (hlen : probs.length = l.length)
    (ha : a ∈ l) : ∃ q ∈ probs, (l.zip probs).lookup a = some q := by
  induction l generalizing probs with
  | nil => cases ha
  | cons x l ih =>
    obtain ⟨q, probs, rfl⟩ := List.exists_cons_of_length_eq_add_one hlen
    rw [List.length_cons, List.length_cons, Nat.add_right_cancel_iff] at hlen
    rw [List.zip_cons_cons, List.lookup_cons]
    by_cases hax : a = x
    · exact ⟨q, List.mem_cons_self, by rw [hax, beq_self_eq_true]⟩
    · obtain ⟨r, hr, hlookup⟩ := ih hlen ((List.mem_cons.mp ha).resolve_left hax)
      exact ⟨r, List.mem_cons_of_mem _ hr, by rw [beq_eq_false_iff_ne.mpr hax, hlookup]⟩

theorem transition_pos (hd : ApproverDag cw ep) (x : Hash) (a : Hash)
    (ha : a ∈ cw.approversOf x) : 0 < transition E alpha cw x a := by
  obtain ⟨probs, hprobs⟩ :
    ∃ probs, mapTransitionProbabilities E alpha cw (cw.approversOf x) = .ok probs :=
    exists_probs hd x
  obtain ⟨hlen, hpos, -⟩ := mapTransitionProbabilities_ok hprobs
  obtain ⟨q, hq, hlookup⟩ := lookup_zip hlen ha
  unfold transition
  rw [hprobs]
  dsimp only
  rw [hlookup]
  exact hpos q hq

/-- The total is kept. -/
theorem kept_one (hd : ApproverDag cw ep) : Kept E alpha cw fun _ => 1 := by
  intro x hx
  obtain ⟨probs, hprobs⟩ :
    ∃ probs, mapTransitionProbabilities E alpha cw (cw.approversOf x) = .ok probs :=
    exists_probs hd x
  obtain ⟨hlen, -, hsum⟩ := mapTransitionProbabilities_ok hprobs
  rw [Paths.Harmonic, ← sum_transition hprobs fun _ => 1]
  have hsnd : ((cw.approversOf x).zip probs).map Prod.snd = probs := List.map_snd_zip hlen.le
  calc (1 : ℚ) = probs.sum := (hsum hx).symm
    _ = (((cw.approversOf x).zip probs).map Prod.snd).sum := by rw [hsnd]
    _ = _ := by simp only [mul_one]

/-- The paths to a tip are kept. -/
theorem kept_pathSum (hd : ApproverDag cw ep) (tip : Hash) (ht : cw.approversOf tip = []) :
    Kept E alpha cw fun x => Paths.pathSum cw.approversOf (transition E alpha cw) x tip :=
  fun _ hx => Paths.harmonic_pathSum (wellFounded_approvers hd) CwCalcResult.nodup_approversOf
    fun he => hx (he ▸ ht)

/-! ## One turn -/

theorem not_mem_approversOf (hd : ApproverDag cw ep) : curr ∉ cw.approversOf curr :=
  fun h => hd.acyclic curr (.single h)

/-- **A turn** hands on what a transaction has, or leaves a tip as it is. -/
theorem probTurn_cons (hd : ApproverDag cw ep) (hcurr : curr ∈ cw.txToApprovers.keys)
    (rest : List Hash) (s : ExitProbs Hash) :
    ∃ s', probTurn E alpha cw (curr :: rest) s = .ok (.again (rest ++ cw.approversOf curr)) s' ∧
      Passed E alpha cw curr s.exitProbs s'.exitProbs := by
  obtain ⟨probs, hprobs⟩ :
    ∃ probs, mapTransitionProbabilities E alpha cw (cw.approversOf curr) = .ok probs :=
    exists_probs hd curr
  have hfst : ((cw.approversOf curr).zip probs).map Prod.fst = cw.approversOf curr :=
    List.map_fst_zip (mapTransitionProbabilities_ok hprobs).1.ge
  obtain ⟨hweighted, hvalue, hkeys⟩ := foldl_handOn (s := s)
    (show curr ∉ ((cw.approversOf curr).zip probs).map Prod.fst by
      rw [hfst]
      exact not_mem_approversOf hd)
  rw [hfst] at hvalue hkeys
  obtain ⟨s₁, hs₁⟩ : ∃ s₁, s₁ = ((cw.approversOf curr).zip probs).foldl (handOn curr) s := ⟨_, rfl⟩
  rw [← hs₁] at hweighted hvalue hkeys
  have hturn : probTurn E alpha cw (curr :: rest) s = .ok (.again (rest ++ cw.approversOf curr))
      (if isTxATip cw curr then s₁ else { s₁ with exitProbs := s₁.exitProbs.clear curr }) := by
    simp only [probTurn, if_pos hcurr, hprobs]
    rw [hs₁]
    rfl
  refine ⟨_, hturn, ?_⟩
  by_cases hnil : cw.approversOf curr = []
  · -- nothing is handed on and nothing cleared
    have htip : isTxATip cw curr = true := decide_eq_true hnil
    rw [if_pos htip]
    refine ⟨fun h _ => ?_, fun hn => absurd hnil hn, fun k _ hk => hvalue k hk,
      fun k hk => (hkeys k).mp hk⟩
    rw [hweighted, hnil, List.zip_nil_left, List.map_nil, List.sum_nil, mul_zero, add_zero]
  · have htip : isTxATip cw curr = false := decide_eq_false hnil
    rw [if_neg (by rw [htip]; decide)]
    refine ⟨fun h hharm => ?_, fun _ => ?_, fun k hne hk => ?_, fun k hk => ?_⟩
    · -- the approvers' shares come to what is cleared
      dsimp only
      rw [ProbMap.weighted_clear, hweighted, hvalue curr (not_mem_approversOf hd),
        sum_transition hprobs h, ← hharm hnil]
      ring
    · dsimp only
      rw [ProbMap.value_clear, if_pos rfl]
    · dsimp only
      rw [ProbMap.value_clear, if_neg hne, hvalue k hk]
    · dsimp only at hk
      rw [ProbMap.keys_clear] at hk
      exact (hkeys k).mp hk

/-! ## The queue -/

theorem pending_start (hd : ApproverDag cw ep) : Pending E alpha cw ep ([ep], startProbs ep) where
  queued x hx := by
    rw [List.mem_singleton.mp hx]
    exact hd.entry
  known k hk := by
    rw [List.mem_singleton.mp hk]
    exact hd.entry
  waiting k hk _ := by
    by_contra hn
    exact hk (ProbMap.value_of_not_mem hn)
  kept h _ := by
    rw [ProbMap.weighted]
    exact (add_zero _).trans (one_mul _)

/-- The invariant over a turn. -/
theorem Pending.passed {s' : ExitProbs Hash} (hd : ApproverDag cw ep)
    (hp : Pending E alpha cw ep (curr :: rest, s))
    (h : Passed E alpha cw curr s.exitProbs s'.exitProbs) :
    Pending E alpha cw ep (rest ++ cw.approversOf curr, s') where
  queued x hx := by
    rcases List.mem_append.mp hx with hx | hx
    · exact hp.queued x (List.mem_cons_of_mem _ hx)
    · exact hd.closed curr x hx
  known k hk := by
    rcases h.known k hk with hk | hk
    · exact hp.known k hk
    · exact hd.closed curr k hk
  waiting k hk hn := by
    refine List.mem_append.mpr ?_
    by_cases ha : k ∈ cw.approversOf curr
    · exact .inr ha
    · have hne : k ≠ curr := by
        rintro rfl
        exact hk (h.settled hn)
      -- nothing has come to it, so it waited before
      rw [h.others k hne ha] at hk
      exact .inl ((List.mem_cons.mp (hp.waiting k hk hn)).resolve_left hne)
  kept g hg := by
    rw [h.kept g (hg curr)]
    exact hp.kept g hg

/-! ## What is left at the end -/

theorem nodup_extractTips : (extractTips cw).Nodup := cw.txToApprovers.nodup.filter _

/-- **With the queue empty** everything is on the tips. -/
theorem Pending.exits (hd : ApproverDag cw ep) (hp : Pending E alpha cw ep p) (hnil : p.1 = []) :
    Exits E alpha cw ep p.2.exitProbs := by
  have hinner : ∀ k, cw.approversOf k ≠ [] → p.2.exitProbs.value k = 0 := by
    intro k hk
    by_contra hn
    have hmem := hp.waiting k hn hk
    rw [hnil] at hmem
    cases hmem
  have hnonTip : ∀ k, k ∉ extractTips cw → p.2.exitProbs.value k = 0 := by
    intro k hk
    by_cases hkey : k ∈ p.2.exitProbs.keys
    · exact hinner k fun he => hk (mem_extractTips.mpr ⟨hp.known k hkey, he⟩)
    · exact ProbMap.value_of_not_mem hkey
  refine ⟨hnonTip, ?_, fun k hk => ?_⟩
  · -- the weight 1 gives the total, and all that counts is on tips
    rw [← List.sum_toFinset _ nodup_extractTips, ← hp.kept _ (kept_one hd),
      ProbMap.weighted_eq_finsum]
    simp only [mul_one]
    refine (finsum_eq_sum_of_support_subset _ fun k hk => ?_).symm
    rw [List.coe_toFinset]
    by_contra hn
    exact hk (hnonTip k hn)
  · -- the paths to a tip are 1 on it and 0 on any other
    have htip := (mem_extractTips.mp hk).2
    rw [← hp.kept _ (kept_pathSum hd k htip), ProbMap.weighted_eq_finsum,
      finsum_eq_single _ k fun x hx => ?_]
    · rw [Paths.pathSum_of_nil (wellFounded_approvers hd) htip, if_pos rfl, mul_one]
    · by_cases hxn : cw.approversOf x = []
      · rw [Paths.pathSum_of_nil (wellFounded_approvers hd) hxn, if_neg hx, mul_zero]
      · rw [hinner x hxn, zero_mul]

/-! ## The run -/

/-- **At a head of the loop** it leaves with the queue empty, or goes round. -/
theorem Pending.step (hd : ApproverDag cw ep) {count : Hash → ℕ}
    (hcount : ∀ x, count x = 1 + ((cw.approversOf x).map count).sum)
    (p : List Hash × ExitProbs Hash) (hp : Pending E alpha cw ep p) :
    (∃ a t, probTurn E alpha cw p.1 p.2 = .ok (.done a) t ∧ Exits E alpha cw ep t.exitProbs) ∨
      ∃ q, Loop.Iter (probTurn E alpha cw) p q ∧ Pending E alpha cw ep q ∧
        (q.1.map count).sum < (p.1.map count).sum := by
  obtain ⟨queue, s⟩ := p
  cases queue with
  | nil => exact .inl ⟨(), s, rfl, hp.exits hd rfl⟩
  | cons curr rest =>
    obtain ⟨s', hturn, hpassed⟩ := probTurn_cons hd (hp.queued curr List.mem_cons_self) rest s
    refine .inr ⟨(rest ++ cw.approversOf curr, s'), hturn, hp.passed hd hpassed, ?_⟩
    -- the approvers are worth one less than what they take the place of
    dsimp only
    rw [List.map_append, List.sum_append, List.map_cons, List.sum_cons, hcount curr]
    omega

/-- The invariant holds at every head. -/
theorem Pending.head (hd : ApproverDag cw ep)
    (h : Loop.Head (probTurn E alpha cw) ([ep], startProbs ep) p) : Pending E alpha cw ep p := by
  obtain ⟨count, hcount⟩ := Paths.exists_pathCount (wellFounded_approvers hd)
  have hstep : ∀ p, Pending E alpha cw ep p →
      (∃ a t, probTurn E alpha cw p.1 p.2 = .ok (.done a) t ∧ Exits E alpha cw ep t.exitProbs) ∨
        ∃ q, Loop.Iter (probTurn E alpha cw) p q ∧ Pending E alpha cw ep q := fun p hp =>
    (Pending.step hd hcount p hp).imp id fun ⟨q, hpq, hq, _⟩ => ⟨q, hpq, hq⟩
  exact h.of_progress hstep (pending_start hd)

/-- **The loop runs empty**, and more turns make no difference. -/
theorem run_exits (hd : ApproverDag cw ep) : ∃ n m,
    Loop.EndsWithin (probTurn E alpha cw) n ([ep], startProbs ep) ∧ Exits E alpha cw ep m.exitProbs ∧
    ∀ rounds, n ≤ rounds →
      Loop.run (probTurn E alpha cw) (.of .outOfRounds) rounds [ep] (startProbs ep) = .ok () m := by
  obtain ⟨count, hcount⟩ := Paths.exists_pathCount (wellFounded_approvers hd)
  have hlt : (([ep], startProbs ep).1.map count).sum < count ep + 1 := by
    rw [List.map_singleton, List.sum_singleton]
    exact Nat.lt_succ_self _
  have hends : Loop.EndsWithin (probTurn E alpha cw) (count ep + 1) ([ep], startProbs ep) :=
    Loop.endsWithin_of_progress (fun p => (p.1.map count).sum) (Pending.step hd hcount)
      (pending_start hd) hlt
  obtain ⟨a, m, hrun, hexits⟩ : ∃ a m, Loop.run (probTurn E alpha cw) (.of .outOfRounds)
      (count ep + 1) [ep] (startProbs ep) = .ok a m ∧ Exits E alpha cw ep m.exitProbs :=
    Loop.run_returns (fun p => (p.1.map count).sum) (Pending.step hd hcount) (pending_start hd) hlt
  refine ⟨count ep + 1, m, hends, hexits, fun rounds hle => ?_⟩
  obtain ⟨k, rfl⟩ := Nat.exists_eq_add_of_le hle
  exact (Loop.run_of_endsWithin hends k).trans hrun

/-! ## The computation -/

/-- **A map that is returned** has everything on the tips. -/
theorem calculateProbs_exits {W : WalkWorld Hash σ} {rounds : ℕ} {m : ExitProbs Hash}
    {s s' : WalkState Hash σ} (hd : ApproverDag s.cw ep)
    (h : calculateProbs E alpha W rounds ep s = .ok m s') :
    Exits E alpha s.cw ep m.exitProbs ∧ s'.cw = s.cw := by
  obtain ⟨b, s₁, hvalid, hrest⟩ := bind_eq_ok.mp h
  obtain ⟨w, -, rfl⟩ := zoom_eq_ok.mp hvalid
  cases b with
  | false => cases hrest
  | true =>
    obtain ⟨u, s₂, hremove, hrun⟩ := bind_eq_ok.mp hrest
    have hcw := removeInvalidTipCandidates_cw hremove
    dsimp only at hcw hrun
    rw [hcw] at hrun
    cases hloop : Loop.run (probTurn E alpha s.cw) (.of .outOfRounds) rounds [ep]
        (startProbs ep) with
    | error e t =>
      rw [hloop] at hrun
      cases hrun
    | ok a t =>
      rw [hloop] at hrun
      cases hrun
      obtain ⟨p, hp, hdone⟩ := Loop.run_eq_ok hloop
      have hpending := Pending.head hd hp
      obtain ⟨count, hcount⟩ := Paths.exists_pathCount (wellFounded_approvers hd)
      rcases Pending.step hd hcount p hpending with ⟨a', t', hdone', hexits⟩ | ⟨q, hpq, -⟩
      · obtain rfl : t' = m := by
          have heq := hdone'.symm.trans hdone
          injection heq
        exact ⟨hexits, hcw⟩
      · exact absurd hpq (Loop.not_iter_of_done hdone)

/-- **Exit probabilities conserve mass.** The loop ends, with the total 1 at each of its heads, and
once the entry point and the tips have been judged the map that is returned has everything on the
tips. -/
theorem exitProbabilities_conserve (W : WalkWorld Hash σ) (hd : ApproverDag cw ep) :
    (∃ n, Loop.EndsWithin (probTurn E alpha cw) n ([ep], startProbs ep)) ∧
    (∀ p, Loop.Head (probTurn E alpha cw) ([ep], startProbs ep) p → p.2.exitProbs.sumProbs = 1) ∧
    ∃ n m, Exits E alpha cw ep m.exitProbs ∧
      ∀ rounds, n ≤ rounds → ∀ s s' w, s.cw = cw → W.isValid ep s.world = .ok true w →
        removeInvalidTipCandidates W { s with world := w } = .ok () s' →
        calculateProbs E alpha W rounds ep s = .ok m s' := by
  obtain ⟨n, m, hends, hexits, hrun⟩ := run_exits (E := E) hd
  refine ⟨⟨n, hends⟩, fun p hp => ?_, n, m, hexits, fun rounds hle s s' w hcw hep hremove => ?_⟩
  · rw [ProbMap.sumProbs_eq, (Pending.head hd hp).kept _ (kept_one hd)]
  · have hcw' : s'.cw = cw := (removeInvalidTipCandidates_cw hremove).trans hcw
    have hvalid : WalkWorld.onWorld (W.isValid ep) s = .ok true { s with world := w } :=
      zoom_eq_ok.mpr ⟨w, hep, rfl⟩
    refine (bind_apply_ok hvalid).trans ?_
    rw [if_pos rfl]
    refine (bind_apply_ok hremove).trans ?_
    rw [hcw', hrun rounds hle]

theorem nodup_braidRatings :
    ([(1, 5), (2, 4), (3, 3), (4, 1), (5, 1)] : List (Fin 256 × ℤ)).map Prod.fst |>.Nodup := by
  decide

theorem nodup_braidApprovers : ([.ofList 1 0 [2, 3], .ofList 2 1 [3, 4], .ofList 3 2 [4, 5],
    .ofList 4 3 [], .ofList 5 4 []] : List (IndexedHashSet (Fin 256))).map (·.hash) |>.Nodup := by
  decide

/-- A sub-tangle in which 3 is queued before all that it is worth has come to it. -/
def braid : CwCalcResult (Fin 256) :=
  ⟨⟨[(1, 5), (2, 4), (3, 3), (4, 1), (5, 1)], nodup_braidRatings⟩,
    ⟨[.ofList 1 0 [2, 3], .ofList 2 1 [3, 4], .ofList 3 2 [4, 5], .ofList 4 3 [], .ofList 5 4 []],
      nodup_braidApprovers⟩⟩

theorem approverDag_braid : ApproverDag braid 1 :=
  approverDag_of_rank Fin.val (by decide) (by decide +kernel)

/-- The theorem on that sub-tangle. -/
theorem exitProbabilities_braid :
    (∃ n, Loop.EndsWithin (probTurn WalkWorld.flatExponential (1 / 1000) braid) n
      ([1], startProbs 1)) ∧
    (∀ p, Loop.Head (probTurn WalkWorld.flatExponential (1 / 1000) braid) ([1], startProbs 1) p →
      p.2.exitProbs.sumProbs = 1) ∧
    ∃ n m, Exits WalkWorld.flatExponential (1 / 1000) braid 1 m.exitProbs ∧
      ∀ rounds, n ≤ rounds → ∀ s s' w, s.cw = braid →
        WalkWorld.plainNode.isValid 1 s.world = .ok true w →
        removeInvalidTipCandidates WalkWorld.plainNode { s with world := w } = .ok () s' →
        calculateProbs WalkWorld.flatExponential (1 / 1000) WalkWorld.plainNode rounds 1 s =
          .ok m s' :=
  exitProbabilities_conserve WalkWorld.plainNode approverDag_braid

end ExitMap

end Entangled
