import Entangled.TipSelection.Validator
import Mathlib.Logic.Relation
/-!
# The depth limit

Each round of `below_max_depth` ends with a pop. After trunk and branch were pushed it is the
branch that goes, which nobody has looked at; the transaction itself stays below its trunk and is
popped when it comes up again. So the walk follows trunks only.

`OnChain` is the chain of trunks, `InPast` the past the check is about. The walk analyzes just the
chain (`belowMaxDepthLoop_ok`), and `belowMaxDepth_iff` says when that is enough.
-/

namespace Entangled

open Prog

variable {Hash : Type} [DecidableEq Hash] [HashBytes Hash]

namespace ExitProbValidator

/-! ## The past, and the chain of trunks -/

variable (conf : TipConf Hash) (memo : List Hash) (lowest : ℕ) (t : Tangle Hash)

/-- A stored transaction that no milestone has confirmed, and not the genesis. -/
def Unconfirmed (x : Hash) (tx : Transaction Hash) : Prop :=
  t.transactions.find? x = some tx ∧ x ≠ conf.genesisHash ∧ tx.snapshotIndex = 0

/-- What can be reached from the tail through trunks and branches of unconfirmed transactions. -/
def InPast (tail y : Hash) : Prop :=
  Relation.ReflTransGen
    (fun x y => ∃ tx, Unconfirmed conf t x tx ∧ (y = tx.trunk ∨ y = tx.branch)) tail y

/-- A transaction below the limit: confirmed before it, or the genesis. -/
def Offends (y : Hash) : Prop :=
  if y = conf.genesisHash then 0 < lowest
  else ∃ tx, t.transactions.find? y = some tx ∧ 0 < tx.snapshotIndex ∧ tx.snapshotIndex < lowest

/-- The trunk of an unconfirmed transaction that is not known to be good. -/
def TrunkOf (x y : Hash) : Prop := ∃ tx, Unconfirmed conf t x tx ∧ x ∉ memo ∧ y = tx.trunk

/-- The chain of trunks from the tail. -/
def OnChain (tail y : Hash) : Prop := Relation.ReflTransGen (TrunkOf conf memo t) tail y

/-- What the walk stops at: the index is cut to 32 bits, and the genesis passes. -/
def Flagged (y : Hash) : Prop :=
  y ≠ conf.genesisHash ∧ ∃ tx, t.transactions.find? y = some tx ∧
    tx.snapshotIndex % 2 ^ 32 ≠ 0 ∧ tx.snapshotIndex % 2 ^ 32 < lowest

/-- What holds at the head of the loop. -/
structure ChainInv (tail : Hash) (stack analyzed : List Hash)
    (buffer : Option (Transaction Hash)) : Prop where
  met : tail ∈ analyzed ∨ tail ∈ stack
  nodup : analyzed.Nodup
  sound : ∀ x, x ∈ analyzed ∨ x ∈ stack → OnChain conf memo t tail x
  beneath : ∀ x ∈ stack.tail, x ∈ analyzed
  unflagged : ∀ x ∈ analyzed, ¬Flagged conf lowest t x
  closed : ∀ x ∈ analyzed, ∀ y, TrunkOf conf memo t x y → y ∈ analyzed ∨ y ∈ stack
  /-- A hash that comes up first was pushed as the trunk of what the buffer holds. -/
  buffer : ∀ h, stack.head? = some h → h ∉ analyzed → ∀ tx, buffer = some tx →
    tx.snapshotIndex = 0 ∧ tx.trunk = h

/-- What the walk leaves when it is not cut short: the chain was analyzed, and nothing else. -/
structure ChainDone (tail : Hash) (r : Inspection Hash) : Prop where
  analyzed : ∀ x, x ∈ r.analyzed ↔ OnChain conf memo t tail x
  stack : ∀ x ∈ r.stack, x ∈ r.analyzed
  verdict : r.verdict = .below ↔ ∃ x, OnChain conf memo t tail x ∧ Flagged conf lowest t x

variable {conf memo lowest t} {tail h : Hash} {stack rest analyzed : List Hash}
  {buffer : Option (Transaction Hash)} {tx : Transaction Hash}

theorem chainInv_start (tail : Hash) : ChainInv conf memo lowest t tail [tail] [] none where
  met := .inr List.mem_cons_self
  nodup := List.nodup_nil
  sound x hx := by
    rcases hx with hx | hx
    · cases hx
    · rw [List.mem_singleton.mp hx]
      exact .refl
  beneath x hx := by cases hx
  unflagged x hx := by cases hx
  closed x hx := by cases hx
  buffer h _ _ tx htx := by cases htx

/-- Once the stack is empty the whole chain was seen. -/
theorem ChainInv.analyzed_iff (hI : ChainInv conf memo lowest t tail stack analyzed buffer)
    (hs : ∀ x ∈ stack, x ∈ analyzed) (x : Hash) : x ∈ analyzed ↔ OnChain conf memo t tail x := by
  refine ⟨fun hx => hI.sound x (.inl hx), fun hx => ?_⟩
  induction hx with
  | refl => exact hI.met.elim id (hs tail)
  | tail _ hxy ih => exact (hI.closed _ ih _ hxy).elim id (hs _)

/-- A hash that was seen before is dropped. -/
theorem ChainInv.skip (hI : ChainInv conf memo lowest t tail (h :: rest) analyzed buffer)
    (hh : h ∈ analyzed) : ChainInv conf memo lowest t tail rest analyzed buffer where
  met := by
    rcases hI.met with hm | hm
    · exact .inl hm
    · rcases List.mem_cons.mp hm with rfl | hm
      · exact .inl hh
      · exact .inr hm
  nodup := hI.nodup
  sound x hx := hI.sound x (hx.imp id (List.mem_cons_of_mem h))
  beneath x hx := hI.beneath x (List.mem_of_mem_tail hx)
  unflagged := hI.unflagged
  closed x hx y hxy := by
    rcases hI.closed x hx y hxy with hy | hy
    · exact .inl hy
    · rcases List.mem_cons.mp hy with rfl | hy
      · exact .inl hh
      · exact .inr hy
  buffer x hx hna := by
    -- everything beneath the top was seen
    refine absurd (hI.beneath x ?_) hna
    exact List.mem_of_mem_head? hx

/-- A hash that is seen now, whose trunk, if it is gone on to, takes its place on top. -/
theorem ChainInv.inspect (hI : ChainInv conf memo lowest t tail (h :: rest) analyzed buffer)
    (hflag : ¬Flagged conf lowest t h) (pushed : List Hash) (buffer' : Option (Transaction Hash))
    (hpush : ∀ y, TrunkOf conf memo t h y → y ∈ pushed)
    (hsound : ∀ y ∈ pushed, OnChain conf memo t h y)
    (htop : ∀ y ∈ pushed.tail, y = h)
    (hbuffer : ∀ y, pushed.head? = some y → y ≠ h → ∀ tx, buffer' = some tx →
      tx.snapshotIndex = 0 ∧ tx.trunk = y) :
    ChainInv conf memo lowest t tail (pushed ++ rest) (hashSetAdd analyzed h) buffer' where
  met := by
    rcases hI.met with hm | hm
    · exact .inl (mem_hashSetAdd.mpr (.inl hm))
    · rcases List.mem_cons.mp hm with rfl | hm
      · exact .inl (mem_hashSetAdd.mpr (.inr rfl))
      · exact .inr (List.mem_append_right _ hm)
  nodup := nodup_hashSetAdd hI.nodup
  sound x hx := by
    have hh : OnChain conf memo t tail h := hI.sound h (.inr List.mem_cons_self)
    rcases hx with hx | hx
    · rcases mem_hashSetAdd.mp hx with hx | rfl
      · exact hI.sound x (.inl hx)
      · exact hh
    · rcases List.mem_append.mp hx with hx | hx
      · exact hh.trans (hsound x hx)
      · exact hI.sound x (.inr (List.mem_cons_of_mem h hx))
  beneath x hx := by
    have hrest : ∀ y ∈ rest, y ∈ hashSetAdd analyzed h := fun y hy =>
      mem_hashSetAdd.mpr (.inl (hI.beneath y hy))
    cases pushed with
    | nil => exact hrest x (List.mem_of_mem_tail hx)
    | cons p ps =>
      rcases List.mem_append.mp hx with hx | hx
      · exact mem_hashSetAdd.mpr (.inr (htop x hx))
      · exact hrest x hx
  unflagged x hx := by
    rcases mem_hashSetAdd.mp hx with hx | rfl
    · exact hI.unflagged x hx
    · exact hflag
  closed x hx y hxy := by
    rcases mem_hashSetAdd.mp hx with hx | rfl
    · rcases hI.closed x hx y hxy with hy | hy
      · exact .inl (mem_hashSetAdd.mpr (.inl hy))
      · rcases List.mem_cons.mp hy with rfl | hy
        · exact .inl (mem_hashSetAdd.mpr (.inr rfl))
        · exact .inr (List.mem_append_right _ hy)
    · exact .inr (List.mem_append_left _ (hpush y hxy))
  buffer x hx hna tx htx := by
    have hne : x ≠ h := fun he => hna (mem_hashSetAdd.mpr (.inr he))
    cases pushed with
    | nil =>
      have hmem : x ∈ rest := List.mem_of_mem_head? hx
      exact absurd (mem_hashSetAdd.mpr (.inl (hI.beneath x hmem))) hna
    | cons p ps => exact hbuffer x hx hne tx htx

/-- **One round**: the hash on top is looked at and popped, or its trunk comes to lie on it. -/
theorem ChainInv.round (hI : ChainInv conf memo lowest t tail (h :: rest) analyzed buffer)
    (hgen : h ≠ conf.genesisHash) (hna : h ∉ analyzed)
    (hsome : (t.transactions.find? h <|> buffer) = some tx)
    (hok : ¬(tx.snapshotIndex % 2 ^ 32 ≠ 0 ∧ tx.snapshotIndex % 2 ^ 32 < lowest)) :
    ChainInv conf memo lowest t tail
      (if tx.snapshotIndex = 0 ∧ h ∉ memo then tx.branch :: tx.trunk :: h :: rest
        else h :: rest).tail (hashSetAdd analyzed h) (some tx) := by
  cases hf : t.transactions.find? h with
  | some tx' =>
    rw [hf] at hsome
    obtain rfl : tx' = tx := Option.some.inj hsome
    have hflag : ¬Flagged conf lowest t h := by
      rintro ⟨-, tx₁, hf₁, hflag⟩
      obtain rfl := Option.some.inj (hf.symm.trans hf₁)
      exact hok hflag
    split
    · rename_i hgo
      have htrunk : TrunkOf conf memo t h tx'.trunk := ⟨tx', ⟨hf, hgen, hgo.1⟩, hgo.2, rfl⟩
      refine hI.inspect hflag [tx'.trunk, h] _ (fun y hy => ?_) (fun y hy => ?_) (fun y hy => ?_)
        fun y hy _ tx₁ htx => ?_
      · obtain ⟨tx₁, hun, -, rfl⟩ := hy
        obtain rfl := Option.some.inj (hf.symm.trans hun.1)
        exact List.mem_cons_self
      · rcases List.mem_cons.mp hy with rfl | hy
        · exact .single htrunk
        · rw [List.mem_singleton.mp hy]
          exact .refl
      · exact List.mem_singleton.mp hy
      · obtain rfl := Option.some.inj htx
        exact ⟨hgo.1, Option.some.inj hy⟩
    · rename_i hstay
      refine hI.inspect hflag [] _ (fun y hy => ?_) (fun y hy => by cases hy)
        (fun y hy => by cases hy) fun y hy => by cases hy
      obtain ⟨tx₁, hun, hm, -⟩ := hy
      obtain rfl := Option.some.inj (hf.symm.trans hun.1)
      exact absurd ⟨hun.2.2, hm⟩ hstay
  | none =>
    -- the buffer still holds the transaction whose trunk this is
    rw [hf] at hsome
    obtain ⟨hzero, htrunk⟩ := hI.buffer h rfl hna tx hsome
    have hflag : ¬Flagged conf lowest t h := by
      rintro ⟨-, tx₁, hf₁, -⟩
      rw [hf] at hf₁
      cases hf₁
    have hnone : ∀ y, ¬TrunkOf conf memo t h y := by
      rintro y ⟨tx₁, hun, -, -⟩
      have hf₁ := hun.1
      rw [hf] at hf₁
      cases hf₁
    split
    · refine hI.inspect hflag [tx.trunk, h] _ (fun y hy => absurd hy (hnone y)) (fun y hy => ?_)
        (fun y hy => List.mem_singleton.mp hy) fun y hy hne => ?_
      · have hyh : y = h := by
          rcases List.mem_cons.mp hy with rfl | hy
          · exact htrunk
          · exact List.mem_singleton.mp hy
        rw [hyh]
        exact .refl
      · exact absurd ((Option.some.inj hy).symm.trans htrunk) hne
    · exact hI.inspect hflag [] _ (fun y hy => absurd hy (hnone y)) (fun y hy => by cases hy)
        (fun y hy => by cases hy) fun y hy => by cases hy

/-- The genesis is popped without a look at the store. -/
theorem ChainInv.genesis
    (hI : ChainInv conf memo lowest t tail (conf.genesisHash :: rest) analyzed buffer) :
    ChainInv conf memo lowest t tail rest (hashSetAdd analyzed conf.genesisHash) buffer := by
  refine hI.inspect (fun hf => hf.1 rfl) [] _ (fun y hy => ?_) (fun y hy => by cases hy)
    (fun y hy => by cases hy) fun y hy => by cases hy
  obtain ⟨tx, hun, -⟩ := hy
  exact absurd rfl hun.2.1

/-- With nothing left to look at the chain was analyzed, and there is no transaction on it that the
walk stops at. -/
theorem ChainInv.done (hI : ChainInv conf memo lowest t tail [] analyzed buffer) :
    ChainDone conf memo lowest t tail ⟨.notBelow, analyzed, []⟩ := by
  have hchain := hI.analyzed_iff fun x hx => by cases hx
  refine ⟨hchain, fun x hx => absurd hx List.not_mem_nil, ?_⟩
  refine iff_of_false (fun h => by cases h) ?_
  rintro ⟨x, hx, hflag⟩
  exact hI.unflagged x ((hchain x).mpr hx) hflag

/-- What the walk stops at is in the store: what the buffer held before is of an unconfirmed
transaction. -/
theorem ChainInv.find?_of_below
    (hI : ChainInv conf memo lowest t tail (h :: rest) analyzed buffer) (hna : h ∉ analyzed)
    (hsome : (t.transactions.find? h <|> buffer) = some tx)
    (hbelow : tx.snapshotIndex % 2 ^ 32 ≠ 0) : t.transactions.find? h = some tx := by
  cases hf : t.transactions.find? h with
  | some tx' => rwa [hf] at hsome
  | none =>
    rw [hf] at hsome
    have hzero := (hI.buffer h rfl hna tx hsome).1
    rw [hzero] at hbelow
    exact absurd rfl hbelow

/-- **The walk stops** at a transaction below the limit: it is the last one on the chain, for a
confirmed transaction has no trunk to go to. -/
theorem ChainInv.halt (hI : ChainInv conf memo lowest t tail (h :: rest) analyzed buffer)
    (hgen : h ≠ conf.genesisHash) (hf : t.transactions.find? h = some tx)
    (hbelow : tx.snapshotIndex % 2 ^ 32 ≠ 0 ∧ tx.snapshotIndex % 2 ^ 32 < lowest) :
    ChainDone conf memo lowest t tail ⟨.below, hashSetAdd analyzed h, h :: rest⟩ := by
  have hflag : Flagged conf lowest t h := ⟨hgen, tx, hf, hbelow⟩
  have hstack : ∀ x ∈ h :: rest, x ∈ hashSetAdd analyzed h := by
    intro x hx
    rcases List.mem_cons.mp hx with rfl | hx
    · exact mem_hashSetAdd.mpr (.inr rfl)
    · exact mem_hashSetAdd.mpr (.inl (hI.beneath x hx))
  have hhc : OnChain conf memo t tail h := hI.sound h (.inr List.mem_cons_self)
  refine ⟨fun x => ⟨fun hx => ?_, fun hx => ?_⟩, hstack, iff_of_true rfl ⟨h, hhc, hflag⟩⟩
  · rcases mem_hashSetAdd.mp hx with hx | rfl
    · exact hI.sound x (.inl hx)
    · exact hhc
  · induction hx with
    | refl => exact hI.met.elim (fun hm => mem_hashSetAdd.mpr (.inl hm)) (hstack tail)
    | @tail a b _ hab iha =>
      rcases mem_hashSetAdd.mp iha with ha | rfl
      · rcases hI.closed a ha b hab with hb | hb
        · exact mem_hashSetAdd.mpr (.inl hb)
        · exact hstack b hb
      · obtain ⟨tx₁, hun, -⟩ := hab
        obtain rfl := Option.some.inj (hf.symm.trans hun.1)
        rw [hun.2.2] at hbelow
        exact absurd rfl hbelow.1

/-- **The walk analyzes the chain of trunks**, unless it is cut short. -/
theorem belowMaxDepthLoop_ok {n : ℕ} {r : Inspection Hash} {s s' : Tangle Hash}
    (hs : s.transactions = t.transactions)
    (hI : ChainInv conf memo lowest t tail stack analyzed buffer)
    (hr : belowMaxDepthLoop conf memo lowest n stack analyzed buffer s = .ok r s')
    (hv : r.verdict ≠ .exceeded) : ChainDone conf memo lowest t tail r := by
  induction n generalizing stack analyzed buffer s with
  | zero => cases hr
  | succ n ih =>
    cases stack with
    | nil =>
      cases hr
      exact hI.done
    | cons h rest =>
      rw [belowMaxDepthLoop] at hr
      split at hr
      · cases hr
        exact absurd rfl hv
      split at hr
      · rename_i hh
        exact ih hs (hI.skip hh) hr
      rename_i hh
      split at hr
      · rename_i hgen
        subst hgen
        exact ih hs hI.genesis hr
      rename_i hgen
      obtain ⟨o, s₁, hload, hrest⟩ := bind_eq_ok.mp hr
      obtain ⟨rfl, hsame⟩ := Tangle.transactionLoadPartial_ok hload
      rw [hs] at hrest
      cases hsome : (t.transactions.find? h <|> buffer) with
      | none =>
        rw [hsome] at hrest
        cases hrest
      | some tx =>
      rw [hsome] at hrest
      dsimp only at hrest
      split at hrest
      · rename_i hbelow
        cases hrest
        exact hI.halt hgen (hI.find?_of_below hh hsome hbelow.1) hbelow
      · rename_i hok
        exact ih (hsame.transactions.trans hs) (hI.round hgen hh hsome hok) hrest

/-! ## The walk ends -/

theorem ChainInv.length_le (hI : ChainInv conf memo lowest t tail stack analyzed buffer) :
    analyzed.length ≤ t.transactions.rows.length + 1 := by
  have hsub : analyzed ⊆ tail :: t.transactions.rows.map (·.trunk) := by
    intro x hx
    rcases Relation.ReflTransGen.cases_tail (hI.sound x (.inl hx)) with rfl | ⟨y, -, tx, hun, -, rfl⟩
    · exact List.mem_cons_self
    · exact List.mem_cons_of_mem _ (List.mem_map.mpr ⟨tx, Table.mem_of_find? hun.1, rfl⟩)
  have hle := (hI.nodup.subperm hsub).length_le
  rwa [List.length_cons, List.length_map] at hle

/-- **The rounds suffice.** -/
theorem belowMaxDepthLoop_ne_outOfRounds {n : ℕ} {s s' : Tangle Hash}
    (hs : s.transactions = t.transactions)
    (hI : ChainInv conf memo lowest t tail stack analyzed buffer)
    (hn : 2 * (t.transactions.rows.length + 1 - analyzed.length) + stack.length < n) :
    belowMaxDepthLoop conf memo lowest n stack analyzed buffer s ≠ .error .outOfRounds s' := by
  induction n generalizing stack analyzed buffer s with
  | zero => omega
  | succ n ih =>
    intro hr
    cases stack with
    | nil => cases hr
    | cons h rest =>
      rw [List.length_cons] at hn
      rw [belowMaxDepthLoop] at hr
      split at hr
      · cases hr
      split at hr
      · rename_i hh
        exact ih hs (hI.skip hh) (by omega) hr
      rename_i hh
      have hgrown : (hashSetAdd analyzed h).length = analyzed.length + 1 := by
        rw [hashSetAdd_of_not_mem hh, List.length_append, List.length_singleton]
      split at hr
      · rename_i hgen
        subst hgen
        have hle := hI.genesis.length_le
        exact ih hs hI.genesis (by omega) hr
      rename_i hgen
      rcases bind_eq_error.mp hr with hload | ⟨o, s₁, hload, hrest⟩
      · rcases bind_eq_error.mp hload with ha | ⟨_, _, -, hg⟩
        · rw [Tangle.attempt_eq] at ha
          split at ha <;> cases ha
        · cases hg
      · obtain ⟨rfl, hsame⟩ := Tangle.transactionLoadPartial_ok hload
        rw [hs] at hrest
        cases hsome : (t.transactions.find? h <|> buffer) with
        | none =>
          rw [hsome] at hrest
          cases hrest
        | some tx =>
        rw [hsome] at hrest
        dsimp only at hrest
        split at hrest
        · cases hrest
        · rename_i hok
          have hround := hI.round hgen hh hsome hok
          have hle := hround.length_le
          refine ih (hsame.transactions.trans hs) hround ?_ hrest
          split
          · rw [List.tail_cons, List.length_cons, List.length_cons]
            omega
          · rw [List.tail_cons]
            omega

/-- The walk of the validator ends, and a store that fails is the only error of a stored tail. -/
theorem belowMaxDepthRun_ne_outOfRounds {s' : Tangle Hash} :
    belowMaxDepthRun conf memo lowest tail t ≠ .error .outOfRounds s' := by
  refine belowMaxDepthLoop_ne_outOfRounds rfl (chainInv_start tail) ?_
  rw [depthRounds, List.length_nil, List.length_singleton]
  omega

/-! ## When the chain is enough -/

/-- **The check of the whole past.** Where it completes under its limit it answers as the past of
the tail demands just when the chain of trunks holds a transaction it stops at if the past holds
one below the limit, and not otherwise; and no trunk or branch it pushed was dropped unseen just
when the branches along the chain lie on it. -/
theorem belowMaxDepth_iff {epv epv' : ExitProbValidator Hash} {below : Bool}
    (hr : belowMaxDepth conf lowest tail epv = .ok below epv')
    (hlimit : ∀ r t', belowMaxDepthRun conf epv.maxDepthOkMemoization lowest tail epv.tangle =
      .ok r t' → r.verdict ≠ .exceeded) :
    ((below = false ↔ ¬∃ y, InPast conf epv.tangle tail y ∧ Offends conf lowest epv.tangle y) ↔
      ((∃ y, InPast conf epv.tangle tail y ∧ Offends conf lowest epv.tangle y) ↔
        ∃ x, OnChain conf epv.maxDepthOkMemoization epv.tangle tail x ∧
          Flagged conf lowest epv.tangle x)) ∧
    ∃ r t', belowMaxDepthRun conf epv.maxDepthOkMemoization lowest tail epv.tangle = .ok r t' ∧
      ((∀ x ∈ r.analyzed, ∀ tx, Unconfirmed conf epv.tangle x tx →
          x ∉ epv.maxDepthOkMemoization → ∀ y, y = tx.trunk ∨ y = tx.branch →
            y ∈ r.analyzed ∨ y ∈ r.stack) ↔
        ∀ x, OnChain conf epv.maxDepthOkMemoization epv.tangle tail x → ∀ tx,
          Unconfirmed conf epv.tangle x tx → x ∉ epv.maxDepthOkMemoization →
            OnChain conf epv.maxDepthOkMemoization epv.tangle tail tx.branch) := by
  rw [belowMaxDepth, gets_bind] at hr
  obtain ⟨r, epv₁, hrun, hrest⟩ := bind_eq_ok.mp hr
  obtain ⟨t', hwalk, rfl⟩ := zoom_eq_ok.mp hrun
  have hv := hlimit r t' hwalk
  have hdone : ChainDone conf epv.maxDepthOkMemoization lowest epv.tangle tail r :=
    belowMaxDepthLoop_ok rfl (chainInv_start tail) hwalk hv
  have hbelow : below = false ↔ ¬∃ x, OnChain conf epv.maxDepthOkMemoization epv.tangle tail x ∧
      Flagged conf lowest epv.tangle x := by
    rw [← hdone.verdict]
    split at hrest
    · rename_i hnot
      cases hrest
      rw [hnot]
      exact iff_of_true rfl (by decide)
    · rename_i hnot
      cases hrest
      refine iff_of_false (by decide) (not_not.mpr ?_)
      cases hverdict : r.verdict with
      | exceeded => exact absurd hverdict hv
      | below => rfl
      | notBelow => exact absurd hverdict hnot
  refine ⟨by rw [hbelow, not_iff_not]; exact iff_comm, r, t', hwalk, fun hseen x hx tx hun hm => ?_,
    fun hon x hx tx hun hm y hy => ?_⟩
  · rw [← hdone.analyzed] at hx ⊢
    exact (hseen x hx tx hun hm tx.branch (.inr rfl)).elim id (hdone.stack _)
  · rw [hdone.analyzed] at hx
    left
    rw [hdone.analyzed]
    rcases hy with rfl | rfl
    · exact hx.tail ⟨tx, hun, hm, rfl⟩
    · exact hon x hx tx hun hm

/-! ## A branch below the limit -/

theorem nodup_forked : ([{ plainTx 1 2 3 10 0 0 0 with solid := true },
    { plainTx 2 0 0 10 0 0 0 with snapshotIndex := 5 },
    { plainTx 3 0 0 10 0 0 0 with snapshotIndex := 1 }].map (·.hash)).Nodup := by decide

/-- A tail with a trunk confirmed at index 5 and a branch confirmed at index 1. -/
def forkedTangle : Tangle (Fin 256) where
  transactions := ⟨[{ plainTx 1 2 3 10 0 0 0 with solid := true },
    { plainTx 2 0 0 10 0 0 0 with snapshotIndex := 5 },
    { plainTx 3 0 0 10 0 0 0 with snapshotIndex := 1 }], nodup_forked⟩
  milestones := ⟨Table.empty, nodup_noHash⟩
  faults := fun _ => []

/-- A validator that has seen nothing. -/
def freshValidator (t : Tangle Hash) : ExitProbValidator Hash := ⟨t, Table.empty, [], []⟩

/-- The genesis is `0`, the limits are those of the default configuration. -/
def plainTipConf : TipConf (Fin 256) := ⟨0, 15, 20000, 1 / 1000⟩

/-- **A branch below the limit is not seen.** -/
theorem forkedTangle_passes :
    (∃ epv', belowMaxDepth plainTipConf 3 1 (freshValidator forkedTangle) = .ok false epv') ∧
      (∃ r t', belowMaxDepthRun plainTipConf [] 3 1 forkedTangle = .ok r t' ∧
        r.verdict = .notBelow ∧ r.analyzed = [1, 2] ∧ r.stack = []) ∧
      InPast plainTipConf forkedTangle 1 3 ∧ Offends plainTipConf 3 forkedTangle 3 := by
  refine ⟨⟨_, rfl⟩, ⟨_, _, rfl, rfl, rfl, rfl⟩, .single ⟨_, ⟨rfl, by decide, rfl⟩, .inr rfl⟩, ?_⟩
  rw [Offends, if_neg (by decide)]
  exact ⟨_, rfl, by decide, by decide⟩

/-- The same tail with a limit that neither approvee is below. -/
theorem belowMaxDepth_forked_zero :
    ∃ epv', belowMaxDepth plainTipConf 0 1 (freshValidator forkedTangle) = .ok false epv' ∧
      ((false = false ↔ ¬∃ y, InPast plainTipConf forkedTangle 1 y ∧
          Offends plainTipConf 0 forkedTangle y) ↔
        ((∃ y, InPast plainTipConf forkedTangle 1 y ∧ Offends plainTipConf 0 forkedTangle y) ↔
          ∃ x, OnChain plainTipConf [] forkedTangle 1 x ∧
            Flagged plainTipConf 0 forkedTangle x)) := by
  have hrun : belowMaxDepth plainTipConf 0 1 (freshValidator forkedTangle) =
      .ok false { freshValidator forkedTangle with maxDepthOkMemoization := [1] } := rfl
  refine ⟨_, hrun, (belowMaxDepth_iff hrun fun r t' hr => ?_).1⟩
  have hinspect : belowMaxDepthRun plainTipConf [] 0 1 forkedTangle =
      .ok ⟨.notBelow, [1, 2], []⟩ forkedTangle := rfl
  obtain ⟨rfl, -⟩ := EStateM.Result.ok.inj (hinspect.symm.trans hr)
  decide

end ExitProbValidator

end Entangled
