import Entangled.Solidifier.Service
/-!
# Solidity is sound

A transaction that is flagged solid rests on solid ground: its trunk and its
branch are solid entry points, the genesis, or stored and solid themselves. The
threads of the node promise each other that rows stay, that flags stay, and that
a sound store stays sound. Against that background each way to the flag is safe:
the walk keeps every approvee of a candidate settled, a candidate, or still to be
visited, and the step-by-step check looks at approvees that stay settled.
-/

namespace Entangled

open Prog

variable {Hash : Type} [DecidableEq Hash] [HashBytes Hash]

namespace Solidifier

variable (setup : Setup Hash)

/-- Ground a solid transaction may rest on. -/
def Settled (t : Tangle Hash) (h : Hash) : Prop :=
  h ∈ setup.initial.solidEntryPoints.keys ∨ h = setup.conf.genesisHash ∨
    ∃ tx, t.transactions.find? h = some tx ∧ tx.solid = true

/-- **A sound store**: whatever is flagged solid rests on settled ground. -/
def Sound (t : Tangle Hash) : Prop :=
  ∀ h tx, t.transactions.find? h = some tx → tx.solid = true →
    Settled setup t tx.trunk ∧ Settled setup t tx.branch

/-- Rows stay, with their approvees, and so do solid flags. -/
def Grows (t t' : Tangle Hash) : Prop :=
  ∀ h tx, t.transactions.find? h = some tx → ∃ tx', t'.transactions.find? h = some tx' ∧
    tx'.trunk = tx.trunk ∧ tx'.branch = tx.branch ∧ (tx.solid = true → tx'.solid = true)

/-- **What the threads promise each other.** -/
structure Advances (s s' : Solidifier Hash) : Prop where
  grows : Grows s.tangle s'.tangle
  sound : Sound setup s.tangle → Sound setup s'.tangle

variable {setup} {t t' u : Tangle Hash} {s s' : Solidifier Hash} {h : Hash}

theorem Grows.refl (t : Tangle Hash) : Grows t t := fun _ tx hf => ⟨tx, hf, rfl, rfl, id⟩

theorem Grows.trans (h₁ : Grows t t') (h₂ : Grows t' u) : Grows t u := by
  intro h tx hf
  obtain ⟨tx₁, hf₁, ht₁, hb₁, hs₁⟩ := h₁ h tx hf
  obtain ⟨tx₂, hf₂, ht₂, hb₂, hs₂⟩ := h₂ h tx₁ hf₁
  exact ⟨tx₂, hf₂, ht₂.trans ht₁, hb₂.trans hb₁, fun hs => hs₂ (hs₁ hs)⟩

theorem Settled.grows (hs : Settled setup t h) (hg : Grows t t') : Settled setup t' h := by
  rcases hs with he | hg' | ⟨tx, hf, hsol⟩
  · exact .inl he
  · exact .inr (.inl hg')
  · obtain ⟨tx', hf', -, -, hs'⟩ := hg h tx hf
    exact .inr (.inr ⟨tx', hf', hs' hsol⟩)

theorem Advances.refl (s : Solidifier Hash) : Advances setup s s := ⟨.refl _, id⟩

theorem Advances.trans {s₁ s₂ s₃ : Solidifier Hash} (h₁ : Advances setup s₁ s₂)
    (h₂ : Advances setup s₂ s₃) : Advances setup s₁ s₃ :=
  ⟨h₁.grows.trans h₂.grows, fun hs => h₂.sound (h₁.sound hs)⟩

/-- Trunk, branch and solid flag of every row are as they were. -/
def SameFlags (t t' : Tangle Hash) : Prop :=
  ∀ h, (t'.transactions.find? h).map (fun tx => (tx.trunk, tx.branch, tx.solid)) =
    (t.transactions.find? h).map fun tx => (tx.trunk, tx.branch, tx.solid)

theorem SameFlags.symm (hs : SameFlags t t') : SameFlags t' t := fun h => (hs h).symm

theorem SameFlags.find? (hs : SameFlags t t') {tx : Transaction Hash}
    (hf : t.transactions.find? h = some tx) :
    ∃ tx', t'.transactions.find? h = some tx' ∧ tx'.trunk = tx.trunk ∧ tx'.branch = tx.branch ∧
      tx'.solid = tx.solid := by
  have hmap := hs h
  rw [hf, Option.map_some, Option.map_eq_some_iff] at hmap
  obtain ⟨tx', hf', heq⟩ := hmap
  simp only [Prod.mk.injEq] at heq
  exact ⟨tx', hf', heq⟩

theorem SameFlags.grows (hs : SameFlags t t') : Grows t t' := by
  intro h tx hf
  obtain ⟨tx', hf', ht, hb, hsol⟩ := hs.find? hf
  exact ⟨tx', hf', ht, hb, fun h => hsol.trans h⟩

theorem SameFlags.sound (hs : SameFlags t t') (h : Sound setup t) : Sound setup t' := by
  intro x tx' hf' hsol'
  obtain ⟨tx, hf, ht, hb, hsol⟩ := hs.symm.find? hf'
  obtain ⟨htrunk, hbranch⟩ := h x tx hf (hsol.trans hsol')
  exact ⟨ht ▸ htrunk.grows hs.grows, hb ▸ hbranch.grows hs.grows⟩

theorem SameFlags.advances (hs : SameFlags s.tangle s'.tangle) : Advances setup s s' :=
  ⟨hs.grows, hs.sound⟩

theorem sameFlags_of_sameTables (hs : Tangle.SameTables t t') : SameFlags t t' := by
  intro h
  rw [hs.1]

/-! ## Storing and flagging -/

theorem grows_withTransaction {tx : Transaction Hash} (hk : tx.hash ∉ t.transactions.keys) :
    Grows t (t.withTransaction tx) := by
  intro x r hf
  refine ⟨r, ?_, rfl, rfl, id⟩
  rw [Tangle.find?_withTransaction hk, if_neg, hf]
  rintro rfl
  exact hk (Table.mem_keys_iff.mpr ⟨r, hf⟩)

/-- A new row is not solid, and no row loses its ground. -/
theorem sound_withTransaction {tx : Transaction Hash} (hk : tx.hash ∉ t.transactions.keys)
    (hs : Sound setup t) : Sound setup (t.withTransaction tx) := by
  intro x r hf hsol
  rw [Tangle.find?_withTransaction hk] at hf
  split at hf
  · cases hf
    cases hsol
  · have hg := grows_withTransaction hk
    exact (hs x r hf hsol).imp (·.grows hg) (·.grows hg)

theorem advances_transactionStore (tx : Transaction Hash) :
    Keeps (Advances setup) (inTangle (Tangle.transactionStore tx)) := by
  refine Keeps.zoom (S := fun t t' => Grows t t' ∧ (Sound setup t → Sound setup t')) ?_
    fun s t h => ⟨h.1, h.2⟩
  refine Keeps.bind (fun h₁ h₂ => ⟨h₁.1.trans h₂.1, fun h => h₂.2 (h₁.2 h)⟩) ?_ fun _ t => ?_
  · intro t
    have hkeep : Keeps Tangle.SameTables (Tangle.attempt .transactionStore : TangleM Hash Unit) :=
      Tangle.keeps_attempt rfl
    have hs := sameFlags_of_sameTables (hkeep t)
    exact ⟨hs.grows, hs.sound⟩
  · rw [final_gets_bind]
    by_cases hk : tx.hash ∈ t.transactions.keys
    · rw [decide_eq_true hk]
      exact ⟨.refl t, id⟩
    · rw [decide_eq_false hk]
      exact ⟨grows_withTransaction hk, sound_withTransaction hk⟩

/-- A candidate that is held up: it is stored, and its approvees are settled,
candidates too, or still on the stack. -/
def HeldUp (setup : Setup Hash) (t : Tangle Hash) (stack candidates : List Hash) (c : Hash) :
    Prop :=
  ∃ tx, t.transactions.find? c = some tx ∧
    ∀ y ∈ [tx.trunk, tx.branch], Settled setup t y ∨ y ∈ candidates ∨ y ∈ stack

/-- **Candidates that hold each other up.** -/
def Supported (setup : Setup Hash) (t : Tangle Hash) (stack candidates : List Hash) : Prop :=
  ∀ c ∈ candidates, HeldUp setup t stack candidates c

theorem HeldUp.grows {stack candidates : List Hash} {c : Hash}
    (hc : HeldUp setup t stack candidates c) (hg : Grows t t') :
    HeldUp setup t' stack candidates c := by
  obtain ⟨tx, hf, hy⟩ := hc
  obtain ⟨tx', hf', ht, hb, -⟩ := hg c tx hf
  refine ⟨tx', hf', fun y hym => ?_⟩
  rw [ht, hb] at hym
  exact (hy y hym).imp_left (·.grows hg)

theorem Supported.grows {stack candidates : List Hash} (hs : Supported setup t stack candidates)
    (hg : Grows t t') : Supported setup t' stack candidates := fun c hc => (hs c hc).grows hg

/-- A hash can leave the stack once it is settled or a candidate. -/
theorem HeldUp.pop {stack stack' candidates candidates' : List Hash} {c : Hash}
    (hc : HeldUp setup t (h :: stack) candidates c) (hstack : ∀ y ∈ stack, y ∈ stack')
    (hcand : ∀ y ∈ candidates, y ∈ candidates') (hh : Settled setup t h ∨ h ∈ candidates') :
    HeldUp setup t stack' candidates' c := by
  obtain ⟨tx, hf, hy⟩ := hc
  refine ⟨tx, hf, fun y hym => ?_⟩
  rcases hy y hym with hs | hs | hs
  · exact .inl hs
  · exact .inr (.inl (hcand y hs))
  · rcases List.mem_cons.mp hs with rfl | hs
    · exact hh.imp_right .inl
    · exact .inr (.inr (hstack y hs))

theorem find?_withSolidity (hashes : List Hash) (isSolid : Bool) :
    (t.withSolidity hashes isSolid).transactions.find? h =
      (t.transactions.find? h).map fun tx =>
        if tx.hash ∈ hashes then { tx with solid := isSolid } else tx :=
  Tangle.find?_mapTransactions h

theorem grows_withSolidity (hashes : List Hash) : Grows t (t.withSolidity hashes true) := by
  intro h tx hf
  refine ⟨if tx.hash ∈ hashes then { tx with solid := true } else tx, ?_, ?_, ?_, ?_⟩
  · rw [find?_withSolidity, hf, Option.map_some]
  all_goals split <;> simp

theorem settled_withSolidity {hashes : List Hash} (hs : Supported setup t [] hashes) {y : Hash}
    (hy : Settled setup t y ∨ y ∈ hashes ∨ y ∈ ([] : List Hash)) :
    Settled setup (t.withSolidity hashes true) y := by
  rcases hy with hy | hy | hy
  · exact hy.grows (grows_withSolidity hashes)
  · obtain ⟨tx, hf, -⟩ := hs y hy
    refine .inr (.inr ⟨{ tx with solid := true }, ?_, rfl⟩)
    have hk : tx.hash = y := Table.key_of_find? hf
    rw [find?_withSolidity, hf, Option.map_some, if_pos (hk ▸ hy)]
  · cases hy

/-- **Flagging supported candidates keeps a store sound.** -/
theorem sound_withSolidity {hashes : List Hash} (hsup : Supported setup t [] hashes)
    (hs : Sound setup t) : Sound setup (t.withSolidity hashes true) := by
  intro h tx' hf' hsol'
  rw [find?_withSolidity, Option.map_eq_some_iff] at hf'
  obtain ⟨tx, hf, rfl⟩ := hf'
  have hk : tx.hash = h := Table.key_of_find? hf
  by_cases hm : tx.hash ∈ hashes
  · rw [if_pos hm]
    obtain ⟨r, hfr, hy⟩ := hsup h (hk ▸ hm)
    rw [hf] at hfr
    cases hfr
    exact ⟨settled_withSolidity hsup (hy _ (by simp)), settled_withSolidity hsup (hy _ (by simp))⟩
  · rw [if_neg hm] at hsol' ⊢
    exact (hs h tx hf hsol').imp (·.grows (grows_withSolidity hashes))
      (·.grows (grows_withSolidity hashes))

/-- The update of supported candidates keeps the promise, whether it fails or not. -/
theorem advances_updateSolidity {hashes : List Hash}
    (hsup : Supported setup s.tangle [] hashes) :
    Advances setup s (final (inTangle (Tangle.transactionsUpdateSolidity hashes true)) s) := by
  cases ha : Tangle.attempt .updateSolidity s.tangle with
  | error e t =>
    have hs := sameFlags_of_sameTables ((Tangle.keeps_attempt rfl).of_error ha)
    have hr : inTangle (Tangle.transactionsUpdateSolidity hashes true) s =
        .error e { s with tangle := t } := inTangle_of_error (bind_apply_error ha)
    rw [final_of_error hr]
    exact hs.advances
  | ok a t =>
    have hs := sameFlags_of_sameTables ((Tangle.keeps_attempt rfl).of_ok ha)
    have hr : inTangle (Tangle.transactionsUpdateSolidity hashes true) s =
        .ok () { s with tangle := t.withSolidity hashes true } :=
      inTangle_of_ok (bind_apply_ok ha)
    rw [final_of_ok hr]
    have hg := hs.grows.trans (grows_withSolidity hashes)
    exact ⟨hg, fun h => sound_withSolidity (hsup.grows hs.grows) (hs.sound h)⟩

/-! ## The walk -/

/-- How a round of the walk can come out. -/
theorem checkSolidityFunc_ok {requester : Bool} {entryPoints analyzed : List Hash}
    {v : Verdict Hash} {w w' : Walk Hash (CheckParams Hash)}
    (hr : checkSolidityFunc requester entryPoints h analyzed w = .ok v w') :
    Tangle.SameTables w.tangle w'.tangle ∧ w'.pack = w.pack ∧ v.analyzed = analyzed ∧
      (w'.data.isSolid = false ∨ (v.shouldStop = false ∧ w'.data.isSolid = w.data.isSolid ∧
        ((∃ tx, w.pack.loaded = true ∧ w.pack.model = some tx ∧ v.shouldBranch = true ∧
            w'.data.candidates = hashSetAdd w.data.candidates h) ∨
          (∃ tx, w.pack.loaded = true ∧ w.pack.model = some tx ∧ tx.solid = true ∧
            v.shouldBranch = false ∧ w'.data.candidates = w.data.candidates) ∨
          (h ∈ entryPoints ∧ v.shouldBranch = false ∧
            w'.data.candidates = w.data.candidates)))) := by
  unfold checkSolidityFunc at hr
  rw [gets_bind] at hr
  split at hr
  · rw [Walk.setData, update_bind] at hr
    cases hr
    exact ⟨.refl _, rfl, rfl, .inl rfl⟩
  · rw [Walk.setData, update_bind, gets_bind] at hr
    dsimp only at hr
    split at hr
    · rename_i hl
      cases hm : w.pack.model with
      | none => rw [hm] at hr; cases hr
      | some tx =>
        rw [hm] at hr
        dsimp only at hr
        split at hr
        · rename_i hs
          cases hr
          exact ⟨.refl _, rfl, rfl, .inr ⟨rfl, rfl, .inr (.inl ⟨tx, hl, rfl, hs, rfl, rfl⟩)⟩⟩
        · rw [Walk.setData, update_bind] at hr
          cases hr
          exact ⟨.refl _, rfl, rfl, .inr ⟨rfl, rfl, .inl ⟨tx, hl, rfl, rfl, rfl⟩⟩⟩
    · split at hr
      · rename_i he
        cases hr
        exact ⟨.refl _, rfl, rfl, .inr ⟨rfl, rfl, .inr (.inr ⟨he, rfl, rfl⟩)⟩⟩
      · rw [Walk.setData, update_bind] at hr
        obtain ⟨_, w₁, h₁, h₂⟩ := bind_eq_ok.mp hr
        cases h₂
        obtain ⟨t₁, ht₁, rfl⟩ := zoom_eq_ok.mp h₁
        exact ⟨(Tangle.keeps_requestTransaction requester).of_ok ht₁, rfl, rfl, .inl rfl⟩

/-- **The invariant of the walk.** As long as it found nothing missing, its candidates
hold each other up, and what it has seen is settled or a candidate. -/
def WalkInv (setup : Setup Hash) (stack seen : List Hash) (l : Pack Hash × CheckParams Hash)
    (s : Solidifier Hash) : Prop :=
  l.2.isSolid = true → Supported setup s.tangle stack l.2.candidates ∧
    ∀ y ∈ seen, Settled setup s.tangle y ∨ y ∈ l.2.candidates

variable {stack seen : List Hash} {l l' : Pack Hash × CheckParams Hash}

theorem WalkInv.advances (hI : WalkInv setup stack seen l s) (ha : Advances setup s s') :
    WalkInv setup stack seen l s' := by
  intro hsolid
  obtain ⟨hsup, hseen⟩ := hI hsolid
  exact ⟨hsup.grows ha.grows, fun y hy => (hseen y hy).imp_left (·.grows ha.grows)⟩

theorem WalkInv.skip (hI : WalkInv setup (h :: stack) seen l s) (hh : h ∈ seen) :
    WalkInv setup stack seen l s := by
  intro hsolid
  obtain ⟨hsup, hseen⟩ := hI hsolid
  exact ⟨fun c hc => (hsup c hc).pop (fun _ => id) (fun _ => id) (hseen h hh), hseen⟩

/-- A visited hash that turned out settled. -/
theorem WalkInv.settled (hI : WalkInv setup (h :: stack) seen l s) (hset : Settled setup s.tangle h)
    (hdata : l'.2.isSolid = l.2.isSolid) (hcand : l'.2.candidates = l.2.candidates) :
    WalkInv setup stack (hashSetAdd seen h) l' s := by
  intro hsolid
  obtain ⟨hsup, hseen⟩ := hI (hdata ▸ hsolid)
  rw [hcand]
  refine ⟨fun c hc => (hsup c hc).pop (fun _ => id) (fun _ => id) (.inl hset), fun y hy => ?_⟩
  rcases mem_hashSetAdd.mp hy with hy | rfl
  · exact hseen y hy
  · exact .inl hset

/-- A visited hash that became a candidate, with its approvees on the stack. -/
theorem WalkInv.candidate (hI : WalkInv setup (h :: stack) seen l s) {tx : Transaction Hash}
    (hf : s.tangle.transactions.find? h = some tx) (hdata : l'.2.isSolid = l.2.isSolid)
    (hcand : l'.2.candidates = hashSetAdd l.2.candidates h) :
    WalkInv setup ([tx.trunk, tx.branch] ++ stack) (hashSetAdd seen h) l' s := by
  intro hsolid
  obtain ⟨hsup, hseen⟩ := hI (hdata ▸ hsolid)
  rw [hcand]
  have hold : ∀ y ∈ l.2.candidates, y ∈ hashSetAdd l.2.candidates h :=
    fun y hy => mem_hashSetAdd.mpr (.inl hy)
  have hnew : h ∈ hashSetAdd l.2.candidates h := mem_hashSetAdd.mpr (.inr rfl)
  refine ⟨fun c hc => ?_, fun y hy => ?_⟩
  · rcases mem_hashSetAdd.mp hc with hc | rfl
    · exact (hsup c hc).pop (fun y => List.mem_append_right _) hold (.inr hnew)
    · exact ⟨tx, hf, fun y hym => .inr (.inr (List.mem_append_left _ hym))⟩
  · rcases mem_hashSetAdd.mp hy with hy | rfl
    · exact (hseen y hy).imp_right (hold y)
    · exact .inr hnew

/-- **A round of the walk keeps the invariant**, and one that stops has found the
transaction not solid. -/
theorem WalkInv.visit {requester : Bool} {v : Search.Visit Hash}
    (hI : WalkInv setup (h :: stack) seen l s)
    (hr : inTangle (Walk.apart (Walk.visitPast (checkSolidityFunc requester (entryPointsSet setup))
      h seen) l) s = .ok (v, l') s') :
    if v.stop then l'.2.isSolid = false else WalkInv setup (v.next ++ stack) v.seen l' s' := by
  obtain ⟨t', ht, rfl⟩ := zoom_eq_ok.mp hr
  have hv := Walk.apart_eq_ok.mp ht
  cases hstop : v.stop with
  | true =>
    obtain ⟨w₁, v', -, hfunc, hv'⟩ := Walk.visitPast_stopped hv hstop
    obtain ⟨-, -, -, hfalse | ⟨hgo, -⟩⟩ := checkSolidityFunc_ok hfunc
    · exact hfalse
    · rw [hv'] at hgo
      cases hgo
  | false =>
    obtain ⟨w₁, v', hload, hfunc, -, hseen, hnext⟩ := Walk.visitPast_ok hv hstop
    obtain ⟨hs₁, hd₁, hp₁⟩ := Walk.loadPack_ok hload
    obtain ⟨hs₂, hp₂, han, hcases⟩ := checkSolidityFunc_ok hfunc
    have hflags := sameFlags_of_sameTables (hs₁.trans hs₂)
    have hfind : t'.transactions.find? h = s.tangle.transactions.find? h := by
      rw [hs₂.1, hs₁.1]
    have hI' : WalkInv setup (h :: stack) seen l { s with tangle := t' } :=
      hI.advances hflags.advances
    rw [hseen, han]
    rcases hcases with hfalse | ⟨-, hsolid, hcases⟩
    · exact fun hbad => by rw [hfalse] at hbad; cases hbad
    rw [hd₁] at hsolid hcases
    -- a loaded row is the row of the hash
    have hrow : ∀ tx, w₁.pack.loaded = true → w₁.pack.model = some tx →
        t'.transactions.find? h = some tx := by
      intro tx hl hm
      rw [hfind]
      rw [hp₁] at hl hm
      cases hf : s.tangle.transactions.find? h with
      | none => rw [hf] at hl; cases hl
      | some r => rw [hf] at hm; exact hm
    rcases hcases with ⟨tx, hl, hm, hbr, hcand⟩ | ⟨tx, hl, hm, hsol, hbr, hcand⟩ | ⟨he, hbr, hcand⟩
    · rcases hnext with ⟨hno, -⟩ | ⟨tx', hm', -, hn⟩
      · rw [hbr] at hno
        cases hno
      · rw [hp₂, hm] at hm'
        cases hm'
        rw [hn]
        exact hI'.candidate (hrow tx hl hm) hsolid hcand
    · rw [Walk.next_of_not_branch hbr hnext]
      exact hI'.settled (.inr (.inr ⟨tx, hrow tx hl hm, hsol⟩)) hsolid hcand
    · rw [Walk.next_of_not_branch hbr hnext]
      exact hI'.settled (.inl (by simpa [entryPointsSet] using he)) hsolid hcand

/-! ## The threads -/

variable {α : Type}

theorem advances_of_keeps {x : TangleM Hash α} (hx : Keeps Tangle.SameTables x)
    (s : Solidifier Hash) : Advances setup s (final (inTangle x) s) := by
  have hput : ∀ (s : Solidifier Hash) (t : Tangle Hash), Tangle.SameTables s.tangle t →
      Advances setup s { s with tangle := t } := fun s t h => (sameFlags_of_sameTables h).advances
  exact Keeps.zoom hx hput s

/-- A step that leaves the store alone. -/
theorem safe_local {x : EStateM Retcode (Solidifier Hash) α}
    (hx : ∀ s, (final x s).tangle = s.tangle) :
    Process.Safe (Advances setup) (fun _ _ => True) (.atomic x) s := by
  refine Process.Safe.atomic fun s' _ => ⟨SameFlags.advances fun h => ?_, fun _ _ _ => trivial⟩
  rw [hx]

theorem safe_read {x : TangleM Hash α} (hx : Keeps Tangle.SameTables x) :
    Process.Safe (Advances setup) (fun _ _ => True) (onTangle x) s :=
  Process.Safe.atomic fun s' _ => ⟨advances_of_keeps hx s', fun _ _ _ => trivial⟩

/-- What was loaded was the row of that moment. -/
theorem safe_load (hash : Hash) :
    Process.Safe (Advances setup) (fun o s => o = s.tangle.transactions.find? hash)
      (onTangle (Tangle.transactionLoadPartial hash)) s := by
  refine Process.Safe.atomic fun s' _ => ⟨advances_of_keeps (Tangle.keeps_read rfl _) s', ?_⟩
  intro o s'' hr
  obtain ⟨t, ht, rfl⟩ := zoom_eq_ok.mp hr
  obtain ⟨rfl, hs⟩ := Tangle.transactionLoadPartial_ok ht
  exact (congrArg (·.find? hash) hs.1).symm

/-- **The walk is safe**: when it ends without having found anything missing, its
candidates hold each other up. -/
theorem safe_dfsToPast (rounds : ℕ) (hash : Hash) (maxAnalyzed : Int32) :
    Process.Safe (Advances setup)
      (fun r s => r.2.2.isSolid = true → Supported setup s.tangle [] r.2.2.candidates)
      (dfsToPast (checkSolidityFunc setup.requester (entryPointsSet setup)) rounds hash
        setup.conf.genesisHash (entryPointsSet setup) ⟨true, [], maxAnalyzed⟩) s := by
  refine Process.Safe.searching (I := WalkInv setup) (fun hI ha => hI.advances ha)
    (fun hI hh => hI.skip hh) (fun {h stack seen l s} _ _ => advances_of_keeps ?_ s)
    (fun hI _ hr => ?_) (fun hI hsolid => (hI hsolid).1) rounds ?_
  · exact Walk.keeps_apart (Walk.keeps_visitPast Tangle.storeFrame_sameTables
      (keeps_checkSolidityFunc setup.requester (entryPointsSet setup)) h seen) l
  · have hv := hI.visit hr
    split
    · rename_i hstop
      rw [if_pos hstop] at hv
      exact fun hbad => by rw [hv] at hbad; cases hbad
    · rename_i hstop
      rwa [if_neg hstop] at hv
  · refine fun _ => ⟨fun c hc => ?_, fun y hy => .inl ?_⟩
    · cases hc
    · rcases mem_hashSetAdd.mp hy with hy | rfl
      · exact .inl (by simpa [entryPointsSet] using hy)
      · exact .inr (.inl rfl)

theorem safe_checkSolidity (rounds : ℕ) (hash : Hash) (maxAnalyzed : Int32) (isSolid : Bool) :
    Process.Safe (Advances setup) (fun _ _ => True)
      (checkSolidity setup rounds hash maxAnalyzed isSolid) s := by
  refine Process.Safe.bind (safe_load hash) fun o s₁ _ => ?_
  split
  · trivial
  refine Process.Safe.bind (safe_dfsToPast rounds hash _) fun r s₂ hsup => ?_
  dsimp only
  split
  · rename_i hsolid
    refine Process.Safe.bind (Q := fun _ _ => True) ?_ fun ret s₃ _ => ?_
    · refine Process.Safe.mono (Process.Safe.attempted (Q := fun _ _ => True) ?_)
        fun _ _ _ => trivial
      refine Process.Safe.atomic fun s' ha => ⟨?_, fun _ _ _ => trivial⟩
      exact advances_updateSolidity ((hsup hsolid).grows ha.grows)
    · refine Process.Safe.bind (safe_local fun _ => rfl) fun _ s₄ _ => ?_
      split <;> trivial
  · trivial

theorem safe_checkApproveeSolidState (approvee : Hash) :
    Process.Safe (Advances setup) (fun b s => b = true → Settled setup s.tangle approvee)
      (checkApproveeSolidState setup approvee) s := by
  unfold checkApproveeSolidState
  split
  · rename_i he
    exact fun _ => .inl he
  refine Process.Safe.bind (safe_load approvee) fun o s₁ ho => ?_
  cases o with
  | none => exact fun hb => by cases hb
  | some tx =>
    dsimp only
    split
    · rename_i hgen
      exact fun _ => .inr (.inl hgen)
    · exact fun hsol => .inr (.inr ⟨tx, ho.symm, hsol⟩)

/-- A row with settled approvees may be flagged. -/
theorem supported_singleton {hash : Hash} {tx : Transaction Hash}
    (hf : t.transactions.find? hash = some tx) (ht : Settled setup t tx.trunk)
    (hb : Settled setup t tx.branch) : Supported setup t [] [hash] := by
  intro c hc
  rw [List.mem_singleton] at hc
  subst hc
  refine ⟨tx, hf, fun y hy => .inl ?_⟩
  simp only [List.mem_cons, List.not_mem_nil, or_false] at hy
  rcases hy with rfl | rfl
  · exact ht
  · exact hb

theorem safe_checkTransaction (hash : Hash) :
    Process.Safe (Advances setup) (fun _ _ => True)
      (checkTransactionAndUpdateSolidState setup hash) s := by
  unfold checkTransactionAndUpdateSolidState
  split
  · trivial
  refine Process.Safe.bind (safe_load hash) fun o s₁ ho => ?_
  cases o with
  | none => trivial
  | some tx =>
    dsimp only
    split
    · trivial
    -- the row and what was found settled stay, whatever happens until the update
    have hrow : ∀ {s s' : Solidifier Hash},
        (∃ r, s.tangle.transactions.find? hash = some r ∧ r.trunk = tx.trunk ∧
          r.branch = tx.branch) → Advances setup s s' →
        ∃ r, s'.tangle.transactions.find? hash = some r ∧ r.trunk = tx.trunk ∧
          r.branch = tx.branch := by
      rintro s s' ⟨r, hf, ht, hb⟩ ha
      obtain ⟨r', hf', ht', hb', -⟩ := ha.grows hash r hf
      exact ⟨r', hf', ht'.trans ht, hb'.trans hb⟩
    have htrunk : ∀ {b : Bool} {s s' : Solidifier Hash},
        (b = true → Settled setup s.tangle tx.trunk) → Advances setup s s' →
        b = true → Settled setup s'.tangle tx.trunk :=
      fun h ha hb => (h hb).grows ha.grows
    refine Process.Safe.bind (Process.Safe.frame hrow (safe_checkApproveeSolidState tx.trunk)
      ⟨tx, ho.symm, rfl, rfl⟩) fun isTrunkSolid s₂ h₂ => ?_
    refine Process.Safe.bind (Process.Safe.frame hrow (Process.Safe.frame htrunk
      (safe_checkApproveeSolidState tx.branch) h₂.1) h₂.2) fun isBranchSolid s₃ h₃ => ?_
    obtain ⟨⟨hbranch, htrunk'⟩, r, hf, ht, hb⟩ := h₃
    split
    · rename_i hboth
      rw [Bool.and_eq_true] at hboth
      refine Process.Safe.bind (Q := fun _ _ => True) ?_ fun _ _ _ => trivial
      refine Process.Safe.atomic fun s' ha => ⟨?_, fun _ _ _ => trivial⟩
      have hsup : Supported setup s₃.tangle [] [hash] :=
        supported_singleton hf (ht ▸ htrunk' hboth.1) (hb ▸ hbranch hboth.2)
      exact advances_updateSolidity (hsup.grows ha.grows)
    · trivial

theorem safe_checkAndUpdate (hash : Hash) :
    Process.Safe (Advances setup) (fun _ _ => True) (checkAndUpdateSolidState setup hash) s := by
  unfold checkAndUpdateSolidState
  split
  · trivial
  refine Process.Safe.bind (safe_checkTransaction hash) fun isNewSolid s₁ _ => ?_
  split
  · exact Process.Safe.bind (safe_local fun _ => rfl) fun _ s₂ _ => safe_local fun _ => rfl
  · trivial

theorem safe_propagateToApprovers (toPropagate approvers : List Hash) (s : Solidifier Hash) :
    Process.Safe (Advances setup) (fun _ _ => True)
      (propagateToApprovers setup toPropagate approvers) s := by
  induction approvers generalizing s with
  | nil => trivial
  | cons approver rest ih =>
    rw [propagateToApprovers]
    split
    · exact ih s
    · exact Process.Safe.bind (safe_checkAndUpdate approver) fun _ s₁ _ => ih s₁

theorem safe_propagateLoop (toPropagate hashes : List Hash) (s : Solidifier Hash) :
    Process.Safe (Advances setup) (fun _ _ => True)
      (propagateLoop setup toPropagate hashes) s := by
  induction hashes generalizing s with
  | nil => trivial
  | cons hash rest ih =>
    rw [propagateLoop]
    refine Process.Safe.bind (safe_local fun _ => rfl) fun running s₁ _ => ?_
    split
    · refine Process.Safe.bind (safe_read (Tangle.keeps_read rfl _)) fun approvers s₂ _ => ?_
      exact Process.Safe.bind (safe_propagateToApprovers toPropagate approvers s₂)
        fun _ s₃ _ => ih s₃
    · trivial

theorem safe_updateStatus (tx : Transaction Hash) :
    Process.Safe (Advances setup) (fun _ _ => True) (updateStatus setup tx) s := by
  unfold updateStatus
  split
  · trivial
  refine Process.Safe.bind (safe_read (Tangle.keeps_read rfl _)) fun count s₁ _ => ?_
  have htips : ∀ (f : TipsCache Hash → TipsCache Hash) {s : Solidifier Hash},
      Process.Safe (Advances setup) (fun _ _ => True) (onTips f : SolidifierP Hash Unit) s :=
    fun f => safe_local fun _ => rfl
  refine Process.Safe.bind (htips _) fun _ s₂ _ => ?_
  refine Process.Safe.bind (htips _) fun _ s₃ _ => ?_
  exact Process.Safe.bind (htips _) fun _ s₄ _ => safe_checkAndUpdate tx.hash

/-! ## Every interleaving -/

/-- The calls a thread can make. -/
inductive Call (Hash : Type)
  | store (tx : Transaction Hash)
  | updateStatus (tx : Transaction Hash)
  | checkSolidity (rounds : ℕ) (hash : Hash) (maxAnalyzed : Int32) (isSolid : Bool)
  | checkAndUpdate (hash : Hash)
  | propagate

/-- The thread of a call. A walk is given any number of rounds: a run that has come
some way has used finitely many. -/
def Call.process (setup : Setup Hash) : Call Hash → SolidifierP Hash Unit
  | store tx => onTangle (Tangle.transactionStore tx)
  | updateStatus tx => Solidifier.updateStatus setup tx
  | checkSolidity rounds hash maxAnalyzed isSolid => do
    let _ ← Solidifier.checkSolidity setup rounds hash maxAnalyzed isSolid
  | checkAndUpdate hash => checkAndUpdateSolidState setup hash
  | propagate => propagateSolidTransactions setup

/-- What the rest of the node may do to the state: anything that leaves trunk, branch
and solid flag of every row as they are. With every thread gone this is also a
restart. -/
def Others (s s' : Solidifier Hash) : Prop := SameFlags s.tangle s'.tangle

/-- A store nothing was flagged in. -/
def Unflagged (s : Solidifier Hash) : Prop :=
  ∀ h tx, s.tangle.transactions.find? h = some tx → tx.solid = false

/-- The states of the node, over every interleaving. -/
def Reachable (setup : Setup Hash) (S : Threads Retcode (Solidifier Hash) Unit) : Prop :=
  Threads.Reachable Unflagged Others (fun p => ∃ c : Call Hash, p = c.process setup) S

theorem safe_call (c : Call Hash) :
    Process.Safe (Advances setup) (fun _ _ => True) (c.process setup) s := by
  cases c with
  | store tx =>
    exact Process.Safe.atomic fun s' _ => ⟨advances_transactionStore tx s', fun _ _ _ => trivial⟩
  | updateStatus tx => exact safe_updateStatus tx
  | checkSolidity rounds hash maxAnalyzed isSolid =>
    exact Process.Safe.bind (safe_checkSolidity rounds hash maxAnalyzed isSolid)
      fun _ _ _ => trivial
  | checkAndUpdate hash => exact safe_checkAndUpdate hash
  | propagate =>
    exact Process.Safe.bind (safe_local fun _ => rfl)
      fun toPropagate s₁ _ => safe_propagateLoop toPropagate toPropagate s₁

theorem sound_of_reachable {S : Threads Retcode (Solidifier Hash) Unit}
    (h : Reachable setup S) : Sound setup S.state.tangle := by
  have hall : S.AllSafe (Advances setup) fun s => Sound setup s.tangle := by
    refine Threads.Reachable.allSafe Advances.refl Advances.trans (fun hs ha => ha.sound hs)
      (fun hs x tx hf hsol => ?_) (fun ho => SameFlags.advances ho) ?_ h
    · rw [hs x tx hf] at hsol
      cases hsol
    · rintro p s ⟨c, rfl⟩ -
      exact safe_call c
  exact hall.inv

/-- The step from a transaction to an approvee that is neither a solid entry point nor
the genesis. -/
def Below (setup : Setup Hash) (t : Tangle Hash) (x y : Hash) : Prop :=
  ∃ tx, t.transactions.find? x = some tx ∧ (y = tx.trunk ∨ y = tx.branch) ∧
    y ∉ setup.initial.solidEntryPoints.keys ∧ y ≠ setup.conf.genesisHash

/-- In a sound store the past of a solid transaction is stored and solid. -/
theorem Sound.past (hs : Sound setup t) {x y : Hash}
    (hxy : Relation.ReflTransGen (Below setup t) x y)
    {tx : Transaction Hash} (hf : t.transactions.find? x = some tx) (hsol : tx.solid = true) :
    ∃ r, t.transactions.find? y = some r ∧ r.solid = true := by
  induction hxy with
  | refl => exact ⟨tx, hf, hsol⟩
  | tail _ hyz ih =>
    obtain ⟨r, hfr, hrs⟩ := ih
    obtain ⟨r', hfr', hz, hne, hng⟩ := hyz
    rw [hfr] at hfr'
    cases hfr'
    obtain ⟨htrunk, hbranch⟩ := hs _ r hfr hrs
    have hset : Settled setup t _ := hz.elim (fun h => h ▸ htrunk) fun h => h ▸ hbranch
    rcases hset with he | hg | hstored
    · exact absurd he hne
    · exact absurd hg hng
    · exact hstored

/-- **Solidity is sound.** In every state that any interleaving of stores, solidity
checks, status updates and propagation can reach, a transaction flagged solid has a
trunk and a branch that are solid entry points, the genesis, or stored and solid; and
its whole past, down to the entry points and the genesis, is stored and solid. -/
theorem solid_rests_on_solid {S : Threads Retcode (Solidifier Hash) Unit} (h : Reachable setup S)
    {hash : Hash} {tx : Transaction Hash}
    (hf : S.state.tangle.transactions.find? hash = some tx) (hsol : tx.solid = true) :
    Settled setup S.state.tangle tx.trunk ∧ Settled setup S.state.tangle tx.branch ∧
      ∀ y, Relation.ReflTransGen (Below setup S.state.tangle) hash y →
        ∃ r, S.state.tangle.transactions.find? y = some r ∧ r.solid = true := by
  have hs := sound_of_reachable h
  obtain ⟨htrunk, hbranch⟩ := hs hash tx hf hsol
  exact ⟨htrunk, hbranch, fun y hy => hs.past hy hf hsol⟩

/-- The genesis is `0`, and `7` is a solid entry point. -/
def soundSetup : Setup (Fin 256) where
  conf := ⟨0, 0, false⟩
  initial := ⟨Table.empty, 0, 0, 0, ⟨[(7, 0)], by decide⟩⟩
  requester := true
  uninit := ⟨0, 0, false⟩

/-- A node with an empty store. -/
def soundStart : Solidifier (Fin 256) :=
  ⟨⟨Table.empty, ⟨Table.empty, nodup_noHash⟩, fun _ => []⟩, [], ⟨[], [], 5⟩, true⟩

/-- Transaction `2`, which approves the genesis and the entry point, and `1`, which
approves `2`, are stored, and then `1` is checked. -/
def soundNode : Solidifier (Fin 256) :=
  [Call.store (plainTx 2 0 7 50 0 0 0), .store (plainTx 1 2 2 50 0 0 0),
    .checkSolidity 10 1 100 false].foldl (fun s c => final (c.process soundSetup).run s) soundStart

/-- The check flags both, and the trunk of `1` is settled. -/
theorem solid_rests_on_solid_checked :
    ∃ (S : Threads Retcode (Solidifier (Fin 256)) Unit) (tx : Transaction (Fin 256)),
      Reachable soundSetup S ∧ S.state.tangle.transactions.find? 1 = some tx ∧ tx.solid = true ∧
      tx.trunk = 2 ∧ Settled soundSetup S.state.tangle tx.trunk := by
  have hstart : Reachable soundSetup ⟨soundStart, []⟩ :=
    .start fun h tx hf => by simp [soundStart] at hf
  obtain ⟨_, h₁⟩ := hstart.called ⟨.store (plainTx 2 0 7 50 0 0 0), rfl⟩ (by decide +kernel)
  obtain ⟨_, h₂⟩ := h₁.called ⟨.store (plainTx 1 2 2 50 0 0 0), rfl⟩ (by decide +kernel)
  obtain ⟨_, h₃⟩ := h₂.called ⟨.checkSolidity 10 1 100 false, rfl⟩ (by decide +kernel)
  have hflag : (soundNode.tangle.transactions.find? 1).any
      (fun tx => tx.solid && decide (tx.trunk = 2)) = true := by decide +kernel
  cases hf : soundNode.tangle.transactions.find? 1 with
  | none => rw [hf] at hflag; cases hflag
  | some tx =>
    rw [hf, Option.any_some, Bool.and_eq_true, decide_eq_true_eq] at hflag
    exact ⟨_, tx, h₃, hf, hflag.1, hflag.2, (solid_rests_on_solid h₃ hf hflag.1).1⟩

end Solidifier

end Entangled
