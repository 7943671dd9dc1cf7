import Entangled.Tangle.Spent
/-!
# Where the tail search goes

The search is meant to climb inside the bundle. Only its first step compares bundles; each step
behind it takes the first approver that has the next lower index, whatever its bundle. When there is
none, the approver it looked at last is left in the buffer of the current transaction, and if the
index of that one is zero it is reported. An index of 2³² or more is cut to 32 bits.

`findTail_stays_iff` says for which transactions all that does no harm.
-/

namespace Entangled

open Prog

variable {Hash : Type} [DecidableEq Hash] [HashBytes Hash]

namespace Tangle

/-- The rows of the approvers, in the order of the table. -/
def approverRows (t : Tangle Hash) (h : Hash) : List (Transaction Hash) :=
  t.transactions.rows.filter fun tx => decide (tx.branch = h ∨ tx.trunk = h)

/-- The first approver with an index. -/
def approverAt (t : Tangle Hash) (h : Hash) (index : ℕ) : Option (Transaction Hash) :=
  (t.approverRows h).find? fun tx => decide (tx.currentIndex = index)

/-- The first approver with an index in a bundle. -/
def approverIn (t : Tangle Hash) (bundle h : Hash) (index : ℕ) : Option (Transaction Hash) :=
  (t.approverRows h).find? fun tx => decide (tx.currentIndex = index ∧ tx.bundle = bundle)

/-- Climbing by first approvers, of whichever bundle, ends at a transaction of index zero, which may
be an approver of another index that was looked at last. -/
def Lands (t : Tangle Hash) : ℕ → Transaction Hash → Prop
  | 0, _ => True
  | index + 1, tx =>
    match t.approverAt tx.hash index with
    | some next => t.Lands index next
    | none => ∃ l, (t.approverRows tx.hash).getLast? = some l ∧ l.currentIndex = 0

/-- Climbing by first approvers leaves the bundle and lands all the same. -/
def Strays (t : Tangle Hash) (bundle : Hash) : ℕ → Transaction Hash → Prop
  | 0, _ => False
  | index + 1, tx =>
    match t.approverAt tx.hash index with
    | some next =>
      (next.bundle = bundle → t.Strays bundle index next) ∧
        (next.bundle ≠ bundle → t.Lands index next)
    | none => ∃ l, (t.approverRows tx.hash).getLast? = some l ∧ l.currentIndex = 0

/-- The first approver in the bundle of a transaction is one from which climbing strays; or its
index was cut and climbing lands. -/
def Misled (t : Tangle Hash) (tx : Transaction Hash) : Prop :=
  ∃ index next, tx.currentIndex % 2 ^ 32 = index + 1 ∧
    t.approverIn tx.bundle tx.hash index = some next ∧
    if tx.currentIndex < 2 ^ 32 then t.Strays tx.bundle index next else t.Lands index next

/-- The transactions that become current in the search, one step up after another. -/
def steps (t : Tangle Hash) : ℕ → TailSearch Hash → List (Transaction Hash)
  | 0, _ => []
  | index + 1, c =>
    let r := t.approverOf index (t.approvers c.curr.hash) c
    if r.2 then r.1.curr :: t.steps index r.1 else []

/-- `next` is one up from `tx` in a bundle. -/
def OneUp (bundle : Hash) (tx next : Transaction Hash) : Prop :=
  (next.branch = tx.hash ∨ next.trunk = tx.hash) ∧ next.bundle = bundle ∧
    next.currentIndex + 1 = tx.currentIndex

/-- **A search that stays inside the bundle**: it goes one up with each step, and the last of its
transactions is the tail. -/
structure StaysInside (t : Tangle Hash) (tx : Transaction Hash) (tail : Hash) : Prop where
  chain : List.IsChain (OneUp tx.bundle)
    (tx :: t.steps (tx.currentIndex % 2 ^ 32) ⟨tx, false⟩)
  last : ∃ tl, (tx :: t.steps (tx.currentIndex % 2 ^ 32) ⟨tx, false⟩).getLast? = some tl ∧
    tl.hash = tail ∧ tl.currentIndex = 0

variable {t t' : Tangle Hash} {h tail bundle : Hash} {tx next : Transaction Hash} {index : ℕ}
  {c : TailSearch Hash}

/-! ## One step -/

theorem mem_approverRows : next ∈ t.approverRows h ↔
    next ∈ t.transactions.rows ∧ (next.branch = h ∨ next.trunk = h) := by
  rw [approverRows, List.mem_filter, decide_eq_true_eq]

/-- The step of a search that shares its buffer. -/
theorem approverOf_shared {rows : List (Transaction Hash)} (hrows : ∀ x ∈ rows,
    t.transactions.find? x.hash = some x) (tx : Transaction Hash) :
    t.approverOf index (rows.map (·.hash)) ⟨tx, true⟩ =
      match rows.find? fun tx => decide (tx.currentIndex = index) with
      | some next => (⟨next, true⟩, true)
      | none => (⟨rows.getLast?.getD tx, true⟩, false) := by
  induction rows generalizing tx with
  | nil => rfl
  | cons x rows ih =>
    rw [List.map_cons, approverOf, hrows x List.mem_cons_self, List.find?_cons]
    dsimp only
    by_cases hx : x.currentIndex = index
    · rw [if_pos ⟨hx, .inl rfl⟩, decide_eq_true hx]
    · rw [if_neg fun hacc => hx hacc.1, decide_eq_false hx, TailSearch.pass, if_pos rfl,
        ih fun y hy => hrows y (List.mem_cons_of_mem _ hy)]
      cases rows with
      | nil => rfl
      | cons y rows => rw [List.getLast?_cons_cons]; rfl

/-- The first step. -/
theorem approverOf_own {rows : List (Transaction Hash)} (hrows : ∀ x ∈ rows,
    t.transactions.find? x.hash = some x) (tx : Transaction Hash) :
    t.approverOf index (rows.map (·.hash)) ⟨tx, false⟩ =
      match rows.find? fun x => decide (x.currentIndex = index ∧ x.bundle = tx.bundle) with
      | some next => (⟨next, true⟩, true)
      | none => (⟨tx, false⟩, false) := by
  induction rows with
  | nil => rfl
  | cons x rows ih =>
    rw [List.map_cons, approverOf, hrows x List.mem_cons_self, List.find?_cons]
    dsimp only
    by_cases hx : x.currentIndex = index ∧ x.bundle = tx.bundle
    · rw [if_pos ⟨hx.1, .inr hx.2⟩, decide_eq_true hx]
    · have hacc : ¬TailSearch.accepts ⟨tx, false⟩ index x := by
        rintro ⟨hidx, hbundle⟩
        exact hx ⟨hidx, hbundle.resolve_left Bool.false_ne_true⟩
      rw [if_neg hacc, decide_eq_false hx, TailSearch.pass, if_neg Bool.false_ne_true,
        ih fun y hy => hrows y (List.mem_cons_of_mem _ hy)]

theorem find?_of_mem_approverRows (hm : next ∈ t.approverRows h) :
    t.transactions.find? next.hash = some next :=
  Table.find?_key (mem_approverRows.mp hm).1

theorem approvers_eq (t : Tangle Hash) (h : Hash) : t.approvers h = (t.approverRows h).map (·.hash) :=
  rfl

theorem currentIndex_of_approverAt {next : Transaction Hash}
    (hnext : t.approverAt tx.hash index = some next) : next.currentIndex = index := by
  have hfound := List.find?_some hnext
  exact of_decide_eq_true hfound

theorem oneUp_of_approverAt (hnext : t.approverAt tx.hash index = some next)
    (hidx : tx.currentIndex = index + 1) :
    next.currentIndex = index ∧ (OneUp bundle tx next ↔ next.bundle = bundle) := by
  have hmem := List.mem_of_find?_eq_some hnext
  have hat := currentIndex_of_approverAt hnext
  refine ⟨hat, And.left ∘ And.right, fun hb => ⟨(mem_approverRows.mp hmem).2, hb, ?_⟩⟩
  rw [hat, hidx]

theorem oneUp_of_approverIn (hnext : t.approverIn tx.bundle tx.hash index = some next) :
    next.currentIndex = index ∧ next.bundle = tx.bundle ∧
      (next.branch = tx.hash ∨ next.trunk = tx.hash) := by
  have hmem := List.mem_of_find?_eq_some hnext
  have hfound := List.find?_some hnext
  obtain ⟨hat, hb⟩ : next.currentIndex = index ∧ next.bundle = tx.bundle := of_decide_eq_true hfound
  exact ⟨hat, hb, (mem_approverRows.mp hmem).2⟩

/-! ## Climbing -/

/-- A step of the climb once the buffer is shared. -/
theorem climb_shared (tx : Transaction Hash) (index : ℕ) :
    t.climb (index + 1) ⟨tx, true⟩ =
      match t.approverAt tx.hash index with
      | some next => t.climb index ⟨next, true⟩
      | none => ⟨(t.approverRows tx.hash).getLast?.getD tx, true⟩ := by
  rw [climb, approvers_eq, approverOf_shared fun x hx => find?_of_mem_approverRows hx, approverAt]
  cases (t.approverRows tx.hash).find? fun tx => decide (tx.currentIndex = index) with
  | none => rfl
  | some next => rfl

theorem steps_shared (tx : Transaction Hash) (index : ℕ) :
    t.steps (index + 1) ⟨tx, true⟩ =
      match t.approverAt tx.hash index with
      | some next => next :: t.steps index ⟨next, true⟩
      | none => [] := by
  rw [steps, approvers_eq, approverOf_shared fun x hx => find?_of_mem_approverRows hx, approverAt]
  cases (t.approverRows tx.hash).find? fun tx => decide (tx.currentIndex = index) with
  | none => rfl
  | some next => rfl

/-- What the search looked at last, when it found nothing, is not the transaction it came from. -/
theorem getD_getLast?_eq_zero (hidx : tx.currentIndex = index + 1) :
    ((t.approverRows tx.hash).getLast?.getD tx).currentIndex = 0 ↔
      ∃ l, (t.approverRows tx.hash).getLast? = some l ∧ l.currentIndex = 0 := by
  cases (t.approverRows tx.hash).getLast? with
  | none =>
    refine iff_of_false (fun hz => ?_) fun ⟨l, hl, _⟩ => by cases hl
    rw [Option.getD_none, hidx] at hz
    cases hz
  | some l =>
    exact ⟨fun hz => ⟨l, rfl, hz⟩, fun ⟨l', hl, hz⟩ => Option.some.inj hl ▸ hz⟩

/-- **The search reports something** exactly when climbing lands. -/
theorem climb_eq_zero_iff (hidx : tx.currentIndex = index) :
    (t.climb index ⟨tx, true⟩).curr.currentIndex = 0 ↔ t.Lands index tx := by
  induction index generalizing tx with
  | zero => exact iff_of_true hidx trivial
  | succ index ih =>
    rw [climb_shared, Lands]
    cases hnext : t.approverAt tx.hash index with
    | none => exact getD_getLast?_eq_zero hidx
    | some next =>
      exact ih (currentIndex_of_approverAt hnext)

/-- The search went one up with each step, to what it reports. -/
def Climbs (t : Tangle Hash) (bundle : Hash) (tx : Transaction Hash) (index : ℕ)
    (c : TailSearch Hash) : Prop :=
  List.IsChain (OneUp bundle) (tx :: t.steps index c) ∧
    ∃ tl, (tx :: t.steps index c).getLast? = some tl ∧ tl.hash = (t.climb index c).curr.hash ∧
      tl.currentIndex = 0

/-- **Once the buffer is shared** a search that reports something has stayed inside the bundle
exactly when it did not stray. -/
theorem climbs_iff (hidx : tx.currentIndex = index) :
    ((t.climb index ⟨tx, true⟩).curr.currentIndex = 0 →
      t.Climbs bundle tx index ⟨tx, true⟩) ↔ ¬t.Strays bundle index tx := by
  induction index generalizing tx with
  | zero =>
    refine iff_of_true (fun _ => ⟨List.isChain_singleton _, tx, rfl, rfl, hidx⟩) id
  | succ index ih =>
    have hlast := getD_getLast?_eq_zero (t := t) hidx
    rw [Climbs, climb_shared, steps_shared, Strays]
    cases hnext : t.approverAt tx.hash index with
    | none =>
      dsimp only
      rw [hlast]
      -- what was left in the buffer is not what the search stepped to
      refine ⟨fun hgo hl => ?_, fun hno hl => absurd hl hno⟩
      obtain ⟨-, tl, htl, -, hz⟩ := hgo hl
      obtain rfl : tx = tl := Option.some.inj htl
      rw [hidx] at hz
      cases hz
    | some next =>
      have hat := currentIndex_of_approverAt hnext
      have hup : OneUp bundle tx next ↔ next.bundle = bundle :=
        (oneUp_of_approverAt hnext hidx).2
      dsimp only
      rw [List.isChain_cons_cons, List.getLast?_cons_cons, hup]
      by_cases hb : next.bundle = bundle
      · have hstep := ih hat
        rw [Climbs] at hstep
        simp only [hb, true_and, ne_eq, not_true_eq_false, false_implies, and_true, true_implies]
        exact hstep
      · have hland := climb_eq_zero_iff (t := t) hat
        simp only [hb, false_and, imp_false, ne_eq, not_false_eq_true, true_implies, false_implies,
          true_and, hland]

/-! ## The first step -/

theorem climb_own (tx : Transaction Hash) (index : ℕ) :
    t.climb (index + 1) ⟨tx, false⟩ =
      match t.approverIn tx.bundle tx.hash index with
      | some next => t.climb index ⟨next, true⟩
      | none => ⟨tx, false⟩ := by
  rw [climb, approvers_eq, approverOf_own fun x hx => find?_of_mem_approverRows hx, approverIn]
  cases (t.approverRows tx.hash).find?
      fun x => decide (x.currentIndex = index ∧ x.bundle = tx.bundle) with
  | none => rfl
  | some next => rfl

theorem steps_own (tx : Transaction Hash) (index : ℕ) :
    t.steps (index + 1) ⟨tx, false⟩ =
      match t.approverIn tx.bundle tx.hash index with
      | some next => next :: t.steps index ⟨next, true⟩
      | none => [] := by
  rw [steps, approvers_eq, approverOf_own fun x hx => find?_of_mem_approverRows hx, approverIn]
  cases (t.approverRows tx.hash).find?
      fun x => decide (x.currentIndex = index ∧ x.bundle = tx.bundle) with
  | none => rfl
  | some next => rfl

/-- **A search from its first step on.** -/
theorem stays_iff (t : Tangle Hash) (tx : Transaction Hash) :
    ((t.climb (tx.currentIndex % 2 ^ 32) ⟨tx, false⟩).curr.currentIndex = 0 →
      t.StaysInside tx (t.climb (tx.currentIndex % 2 ^ 32) ⟨tx, false⟩).curr.hash) ↔
        ¬t.Misled tx := by
  cases hn : tx.currentIndex % 2 ^ 32 with
  | zero =>
    refine iff_of_true (fun hz => ⟨?_, ?_⟩) fun ⟨index, _, hidx, _⟩ => ?_
    · rw [hn]
      exact List.isChain_singleton _
    · rw [hn]
      exact ⟨tx, rfl, rfl, hz⟩
    · rw [hn] at hidx
      cases hidx
  | succ index =>
    have hmisled : t.Misled tx ↔ ∃ next, t.approverIn tx.bundle tx.hash index = some next ∧
        if tx.currentIndex < 2 ^ 32 then t.Strays tx.bundle index next else t.Lands index next := by
      refine ⟨fun ⟨i, next, hi, hnext, hif⟩ => ?_, fun ⟨next, hnext, hif⟩ =>
        ⟨index, next, hn, hnext, hif⟩⟩
      obtain rfl : i = index := Nat.succ.inj (hi.symm.trans hn)
      exact ⟨next, hnext, hif⟩
    have hstays (tail : Hash) : t.StaysInside tx tail ↔
        List.IsChain (OneUp tx.bundle) (tx :: t.steps (index + 1) ⟨tx, false⟩) ∧
          ∃ tl, (tx :: t.steps (index + 1) ⟨tx, false⟩).getLast? = some tl ∧ tl.hash = tail ∧
            tl.currentIndex = 0 := by
      rw [← hn]
      exact ⟨fun hs => ⟨hs.chain, hs.last⟩, fun hs => ⟨hs.1, hs.2⟩⟩
    rw [hmisled, hstays, climb_own, steps_own]
    cases hnext : t.approverIn tx.bundle tx.hash index with
    | none =>
      -- the search ends where it started, above index zero
      refine iff_of_true (fun hz => ?_) fun ⟨_, hno, _⟩ => by cases hno
      have hz' : tx.currentIndex = 0 := hz
      rw [hz'] at hn
      cases hn
    | some next =>
      obtain ⟨hat, hbundle, happroves⟩ := oneUp_of_approverIn hnext
      have hsome : (∃ next', some next = some next' ∧ if tx.currentIndex < 2 ^ 32 then
          t.Strays tx.bundle index next' else t.Lands index next') ↔
          if tx.currentIndex < 2 ^ 32 then t.Strays tx.bundle index next
          else t.Lands index next :=
        ⟨fun ⟨_, he, hif⟩ => Option.some.inj he ▸ hif, fun hif => ⟨next, rfl, hif⟩⟩
      dsimp only
      rw [hsome, List.isChain_cons_cons, List.getLast?_cons_cons]
      by_cases hlt : tx.currentIndex < 2 ^ 32
      · have hup : OneUp tx.bundle tx next := by
          refine ⟨happroves, hbundle, ?_⟩
          rw [Nat.mod_eq_of_lt hlt] at hn
          rw [hat, hn]
        rw [if_pos hlt, ← climbs_iff hat, and_iff_right hup]
        rfl
      · have hcut : ¬OneUp tx.bundle tx next := by
          rintro ⟨-, -, hup⟩
          rw [hat] at hup
          omega
        rw [if_neg hlt, ← climb_eq_zero_iff hat]
        exact ⟨fun hgo hz => hcut (hgo hz).1.1, fun hno hz => absurd hz hno⟩

theorem approverOf_withFaults (faults : Faults) (hashes : List Hash) :
    approverOf { t with faults := faults } index hashes c = t.approverOf index hashes c := by
  induction hashes generalizing c with
  | nil => rfl
  | cons h rest ih =>
    rw [approverOf, approverOf]
    cases t.transactions.find? h with
    | none => rfl
    | some next => simp only [ih]

theorem climb_withFaults (faults : Faults) (n : ℕ) :
    climb { t with faults := faults } n c = t.climb n c := by
  induction n generalizing c with
  | zero => rfl
  | succ index ih =>
    have happroved : approvers { t with faults := faults } c.curr.hash = t.approvers c.curr.hash :=
      rfl
    rw [climb, climb, happroved, approverOf_withFaults]
    simp only [ih]

/-- Which tail is found does not depend on what the next calls will do. -/
theorem tailOf_withFaults (t : Tangle Hash) (faults : Faults) (h : Hash) :
    tailOf { t with faults := faults } h = t.tailOf h := by
  rw [tailOf, tailOf]
  cases t.transactions.find? h with
  | none => rfl
  | some tx => simp only [climb_withFaults]

/-- A bundle of three without its tail, whose middle transaction the tail of another bundle
approves. -/
def straddlingTangle : Tangle (Fin 256) where
  transactions := ⟨[plainTx 1 0 0 10 0 2 2, plainTx 2 1 0 10 0 1 2,
    { plainTx 3 2 0 10 0 0 0 with bundle := 7 }], by decide⟩
  milestones := ⟨Table.empty, nodup_noHash⟩
  faults := fun _ => []

end Tangle

end Entangled
