import Entangled.Common.Search
import Entangled.Model.Containers
import Entangled.Tangle.Store
/-!
# Walks over the tangle

`tangle_traversal_dfs_to_past` follows trunk and branch, and
`tangle_traversal_dfs_to_future` follows approvers. Both hand each transaction
to a function of the caller, which decides whether to branch and whether to
stop.

The row is read into one buffer that is reused for the whole walk. When a
hash has no row the count of the pack is zero but the buffer keeps what the
last row left there; `Pack` holds both, since one of the callers does not look
at the count.
-/

namespace Entangled

open Prog Search

variable {Hash : Type} [DecidableEq Hash] [HashBytes Hash] {δ : Type}

/-- The single-transaction pack of a walk: what its buffer holds, nothing
before the first row, and whether the last load found a row. -/
structure Pack (Hash : Type) where
  model : Option (Transaction Hash)
  loaded : Bool

/-- The state of a walk: the store, the pack and the data of the caller. -/
structure Walk (Hash : Type) [HashBytes Hash] (δ : Type) where
  tangle : Tangle Hash
  pack : Pack Hash
  data : δ

/-- What the function of the caller decides. It sees the set of analyzed hashes,
which one caller also hands to it as its data, and gives it back. -/
structure Verdict (Hash : Type) where
  shouldBranch : Bool
  shouldStop : Bool
  analyzed : List Hash

/-- The function a walk calls for each transaction. -/
abbrev WalkM (Hash : Type) [HashBytes Hash] (δ : Type) := EStateM Retcode (Walk Hash δ)

namespace Walk

/-- Run a function on the store inside a walk. -/
def onTangle {α : Type} (x : TangleM Hash α) : WalkM Hash δ α :=
  zoom Walk.tangle (fun t w => { w with tangle := t }) x

/-- Change the data of the caller. -/
def setData (f : δ → δ) : WalkM Hash δ Unit := update fun w => { w with data := f w.data }

/-- Reset the pack and load a row into its buffer. -/
def loadPack (h : Hash) : WalkM Hash δ Unit := do
  match ← onTangle (Tangle.transactionLoadPartial h) with
  | some tx => update fun w => { w with pack := ⟨some tx, true⟩ }
  | none => update fun w => { w with pack := ⟨w.pack.model, false⟩ }

/-- The hashes a walk to the past pushes: trunk on top of branch, read from the
buffer. -/
def pushApprovees (branch : Bool) : WalkM Hash δ (List Hash) := fun w =>
  if branch then
    match w.pack.model with
    | some tx => .ok [tx.trunk, tx.branch] w
    | none => .error .undefinedRead w
  else .ok [] w

/-- The hashes a walk to the future pushes, the first approver on top. -/
def pushApprovers (h : Hash) (branch : Bool) : WalkM Hash δ (List Hash) :=
  if branch then onTangle (Tangle.loadHashesOfApprovers h) else pure []

/-- One round of the walk to the past. The hash is analyzed only once its
approvees are pushed, so not when the walk stops at it. -/
def visitPast (func : Hash → List Hash → WalkM Hash δ (Verdict Hash)) (h : Hash)
    (analyzed : List Hash) : WalkM Hash δ (Visit Hash) := do
  loadPack h
  let v ← func h analyzed
  if v.shouldStop then pure ⟨[], v.analyzed, true⟩
  else do
    let next ← pushApprovees v.shouldBranch
    pure ⟨next, hashSetAdd v.analyzed h, false⟩

/-- One round of the walk to the future. The hash is analyzed before the walk
can stop at it. -/
def visitFuture (func : Hash → List Hash → WalkM Hash δ (Verdict Hash)) (h : Hash)
    (analyzed : List Hash) : WalkM Hash δ (Visit Hash) := do
  loadPack h
  let v ← func h analyzed
  if v.shouldStop then pure ⟨[], hashSetAdd v.analyzed h, true⟩
  else do
    let next ← pushApprovers h v.shouldBranch
    pure ⟨next, hashSetAdd v.analyzed h, false⟩

/-- The rounds a walk to the past can take: every row is pushed for at most
twice, and so is what a missing row leaves in the buffer. -/
def pastRounds (t : Tangle Hash) : ℕ := 4 * t.transactions.rows.length + 3

/-- The rounds a walk to the future can take. -/
def futureRounds (t : Tangle Hash) : ℕ :=
  t.transactions.rows.length * (t.transactions.rows.length + 1) + 1

/-- `tangle_traversal_dfs_to_past`. -/
def dfsToPast (func : Hash → List Hash → WalkM Hash δ (Verdict Hash)) (entryPoint genesis : Hash)
    (analyzed : List Hash) : WalkM Hash δ (List Hash) := fun w =>
  search (visitPast func) .outOfRounds (pastRounds w.tangle) [entryPoint]
    (hashSetAdd analyzed genesis) w

/-- `tangle_traversal_dfs_to_future`. -/
def dfsToFuture (func : Hash → List Hash → WalkM Hash δ (Verdict Hash)) (entryPoint : Hash)
    (analyzed : List Hash) : WalkM Hash δ (List Hash) := fun w =>
  search (visitFuture func) .outOfRounds (futureRounds w.tangle) [entryPoint] analyzed w

/-- Start a walk on a store with fresh data, and return the data with its
result. -/
def run {α : Type} (data : δ) (x : WalkM Hash δ α) : TangleM Hash (α × δ) := fun t =>
  match x ⟨t, ⟨none, false⟩, data⟩ with
  | .ok a w => .ok (a, w.data) w.tangle
  | .error e w => .error e w.tangle

end Walk

/-- The approvees the walk of a milestone goes on to: those of transactions
confirmed at its index or later. -/
def Tangle.confirmedApprovees (t : Tangle Hash) (k : ℕ) (h : Hash) : List Hash :=
  match t.transactions.find? h with
  | none => []
  | some tx => if k ≤ tx.snapshotIndex then [tx.trunk, tx.branch] else []

namespace Walk

/-! ## Frames and inversion -/

/-- A relation of stores, read on walks. -/
def OnTangle (R : Tangle Hash → Tangle Hash → Prop) (w w' : Walk Hash δ) : Prop :=
  R w.tangle w'.tangle

variable {R : Tangle Hash → Tangle Hash → Prop} {α : Type}
  {func : Hash → List Hash → WalkM Hash δ (Verdict Hash)}
  {w w' : Walk Hash δ} {t t' : Tangle Hash} {h entryPoint genesis : Hash} {analyzed : List Hash}

omit [DecidableEq Hash] in
theorem keeps_onTangle {x : TangleM Hash α} (hx : Keeps R x) :
    Keeps (OnTangle R) (onTangle x : WalkM Hash δ α) :=
  Keeps.zoom hx fun _ _ h => h

omit [DecidableEq Hash] in
theorem OnTangle.trans (hR : Tangle.StoreFrame R) {u v x : Walk Hash δ} (h : OnTangle R u v)
    (h' : OnTangle R v x) : OnTangle R u x := hR.trans h h'

theorem keeps_loadPack (hR : Tangle.StoreFrame R) (h : Hash) :
    Keeps (OnTangle R) (loadPack h : WalkM Hash δ Unit) := by
  refine Keeps.bind (OnTangle.trans hR) (keeps_onTangle fun t => ?_) fun o => ?_
  · exact hR.ofSameTables ((Tangle.keeps_read rfl _) t)
  · cases o <;> exact fun w => hR.refl w.tangle

omit [DecidableEq Hash] in
theorem final_pushApprovees (branch : Bool) (w : Walk Hash δ) :
    final (pushApprovees branch) w = w := by
  unfold final pushApprovees
  cases branch with
  | false => rfl
  | true => cases w.pack.model <;> rfl

theorem keeps_visitPast (hR : Tangle.StoreFrame R)
    (hf : ∀ h analyzed, Keeps (OnTangle R) (func h analyzed)) (h : Hash) (analyzed : List Hash) :
    Keeps (OnTangle R) (visitPast func h analyzed) := by
  refine Keeps.bind (OnTangle.trans hR) (keeps_loadPack hR h) fun _ => ?_
  refine Keeps.bind (OnTangle.trans hR) (hf h analyzed) fun v => ?_
  split
  · exact fun w => hR.refl _
  · refine Keeps.bind (OnTangle.trans hR) ?_ fun next => fun w => hR.refl _
    intro w
    rw [OnTangle, final_pushApprovees]
    exact hR.refl _

theorem keeps_visitFuture (hR : Tangle.StoreFrame R)
    (hf : ∀ h analyzed, Keeps (OnTangle R) (func h analyzed)) (h : Hash) (analyzed : List Hash) :
    Keeps (OnTangle R) (visitFuture func h analyzed) := by
  refine Keeps.bind (OnTangle.trans hR) (keeps_loadPack hR h) fun _ => ?_
  refine Keeps.bind (OnTangle.trans hR) (hf h analyzed) fun v => ?_
  split
  · exact fun w => hR.refl _
  · refine Keeps.bind (OnTangle.trans hR) ?_ fun next => fun w => hR.refl _
    unfold pushApprovers
    split
    · exact keeps_onTangle fun t => hR.ofSameTables ((Tangle.keeps_read rfl _) t)
    · exact fun w => hR.refl _

theorem keeps_dfsToPast (hR : Tangle.StoreFrame R)
    (hf : ∀ h analyzed, Keeps (OnTangle R) (func h analyzed)) :
    Keeps (OnTangle R) (dfsToPast func entryPoint genesis analyzed) := fun w =>
  search_keeps (R := OnTangle R) (fun w => hR.refl w.tangle) (OnTangle.trans hR)
    (keeps_visitPast hR hf) _ _ _ w

theorem keeps_dfsToFuture (hR : Tangle.StoreFrame R)
    (hf : ∀ h analyzed, Keeps (OnTangle R) (func h analyzed)) :
    Keeps (OnTangle R) (dfsToFuture func entryPoint analyzed) := fun w =>
  search_keeps (R := OnTangle R) (fun w => hR.refl w.tangle) (OnTangle.trans hR)
    (keeps_visitFuture hR hf) _ _ _ w

omit [DecidableEq Hash] in
theorem keeps_run {x : WalkM Hash δ α} {d : δ} (hx : Keeps (OnTangle R) x) : Keeps R (run d x) := by
  rw [keeps_iff]
  unfold run
  constructor
  · intro t a t' h
    split at h
    · rename_i hw
      cases h
      exact hx.of_ok hw
    · cases h
  · intro t e t' h
    split at h
    · cases h
    · rename_i hw
      cases h
      exact hx.of_error hw

omit [DecidableEq Hash] in
theorem run_eq_ok {x : WalkM Hash δ α} {d d' : δ} {a : α} :
    run d x t = .ok (a, d') t' ↔
      ∃ w, x ⟨t, ⟨none, false⟩, d⟩ = .ok a w ∧ w.data = d' ∧ w.tangle = t' := by
  unfold run
  cases x ⟨t, ⟨none, false⟩, d⟩ with
  | ok b w =>
    constructor
    · intro h; cases h; exact ⟨w, rfl, rfl, rfl⟩
    · rintro ⟨w', h, rfl, rfl⟩; cases h; rfl
  | error e w => simp

omit [DecidableEq Hash] in
theorem run_eq_error {x : WalkM Hash δ α} {d : δ} {e : Retcode} :
    run d x t = .error e t' ↔ ∃ w, x ⟨t, ⟨none, false⟩, d⟩ = .error e w ∧ w.tangle = t' := by
  unfold run
  cases x ⟨t, ⟨none, false⟩, d⟩ with
  | ok b w => simp
  | error e w =>
    constructor
    · intro h; cases h; exact ⟨w, rfl, rfl⟩
    · rintro ⟨w', h, rfl⟩; cases h; rfl

/-- **Loading a row into the pack.** -/
theorem loadPack_ok (hr : loadPack h w = .ok () w') :
    Tangle.SameTables w.tangle w'.tangle ∧ w'.data = w.data ∧
      w'.pack = match w.tangle.transactions.find? h with
        | some tx => ⟨some tx, true⟩
        | none => ⟨w.pack.model, false⟩ := by
  obtain ⟨o, w₁, h₁, h₂⟩ := bind_eq_ok.mp hr
  obtain ⟨t₁, ht₁, rfl⟩ := zoom_eq_ok.mp h₁
  obtain ⟨rfl, hs⟩ := Tangle.transactionLoadPartial_ok ht₁
  cases hf : w.tangle.transactions.find? h with
  | none => rw [hf] at h₂; cases h₂; exact ⟨hs, rfl, rfl⟩
  | some tx => rw [hf] at h₂; cases h₂; exact ⟨hs, rfl, rfl⟩

/-- Loading a row when nothing fails. -/
theorem loadPack_of_nil (hq : w.tangle.faults = fun _ => []) (h : Hash) :
    loadPack h w = .ok () { w with
      pack := match w.tangle.transactions.find? h with
        | some tx => ⟨some tx, true⟩
        | none => ⟨w.pack.model, false⟩ } := by
  have hload : onTangle (Tangle.transactionLoadPartial h) w =
      .ok (w.tangle.transactions.find? h) w := by
    refine zoom_eq_ok.mpr ⟨w.tangle, ?_, rfl⟩
    rw [Tangle.transactionLoadPartial, bind_apply_ok (Tangle.attempt_of_nil hq), gets_apply]
  rw [loadPack, bind_apply_ok hload]
  cases w.tangle.transactions.find? h with
  | none => rfl
  | some tx => rfl

/-- Loading approvers when nothing fails. -/
theorem pushApprovers_of_nil (hq : w.tangle.faults = fun _ => []) (h : Hash) (branch : Bool) :
    pushApprovers h branch w = .ok (if branch then w.tangle.approvers h else []) w := by
  unfold pushApprovers
  cases branch with
  | false => rfl
  | true =>
    have hload : onTangle (Tangle.loadHashesOfApprovers h) w = .ok (w.tangle.approvers h) w := by
      refine zoom_eq_ok.mpr ⟨w.tangle, ?_, rfl⟩
      rw [Tangle.loadHashesOfApprovers, bind_apply_ok (Tangle.attempt_of_nil hq), gets_apply]
    exact hload

/-- The steps of a round of the walk to the past that did not stop. -/
theorem visitPast_ok {r : Visit Hash} (hr : visitPast func h analyzed w = .ok r w')
    (hstop : r.stop = false) :
    ∃ w₁ v, loadPack h w = .ok () w₁ ∧ func h analyzed w₁ = .ok v w' ∧ v.shouldStop = false ∧
      r.seen = hashSetAdd v.analyzed h ∧
      ((v.shouldBranch = false ∧ r.next = []) ∨
        ∃ tx, w'.pack.model = some tx ∧ v.shouldBranch = true ∧
          r.next = [tx.trunk, tx.branch]) := by
  obtain ⟨_, w₁, h₁, h₂⟩ := bind_eq_ok.mp hr
  obtain ⟨v, w₂, h₃, h₄⟩ := bind_eq_ok.mp h₂
  cases hv : v.shouldStop with
  | true =>
    simp only [hv, if_true] at h₄
    cases h₄
    cases hstop
  | false =>
    simp only [hv, Bool.false_eq_true, if_false] at h₄
    obtain ⟨next, w₃, h₅, h₆⟩ := bind_eq_ok.mp h₄
    cases h₆
    unfold pushApprovees at h₅
    cases hb : v.shouldBranch with
    | false =>
      simp only [hb, Bool.false_eq_true, if_false] at h₅
      cases h₅
      exact ⟨w₁, v, h₁, h₃, hv, rfl, .inl ⟨hb, rfl⟩⟩
    | true =>
      simp only [hb, if_true] at h₅
      cases hm : w₂.pack.model with
      | none => rw [hm] at h₅; cases h₅
      | some tx =>
        rw [hm] at h₅
        cases h₅
        exact ⟨w₁, v, h₁, h₃, hv, rfl, .inr ⟨tx, hm, hb, rfl⟩⟩

omit [DecidableEq Hash] [HashBytes Hash] in
theorem next_of_not_branch {v : Verdict Hash} {next : List Hash} {p : Pack Hash}
    (hv : v.shouldBranch = false)
    (h : (v.shouldBranch = false ∧ next = []) ∨
      ∃ tx, p.model = some tx ∧ v.shouldBranch = true ∧ next = [tx.trunk, tx.branch]) :
    next = [] := by
  rcases h with ⟨-, hn⟩ | ⟨tx, -, hbr, -⟩
  · exact hn
  · rw [hv] at hbr
    cases hbr

/-- The steps of a round of the walk to the past that stopped. -/
theorem visitPast_stopped {r : Visit Hash} (hr : visitPast func h analyzed w = .ok r w')
    (hstop : r.stop = true) :
    ∃ w₁ v, loadPack h w = .ok () w₁ ∧ func h analyzed w₁ = .ok v w' ∧ v.shouldStop = true := by
  obtain ⟨_, w₁, h₁, h₂⟩ := bind_eq_ok.mp hr
  obtain ⟨v, w₂, h₃, h₄⟩ := bind_eq_ok.mp h₂
  cases hv : v.shouldStop with
  | true =>
    simp only [hv, if_true] at h₄
    cases h₄
    exact ⟨w₁, v, h₁, h₃, hv⟩
  | false =>
    simp only [hv, Bool.false_eq_true, if_false] at h₄
    obtain ⟨next, w₃, -, h₆⟩ := bind_eq_ok.mp h₄
    cases h₆
    cases hstop

/-- The steps of a round of the walk to the future. -/
theorem visitFuture_ok {r : Visit Hash} (hr : visitFuture func h analyzed w = .ok r w') :
    ∃ w₁ v w₂, loadPack h w = .ok () w₁ ∧ func h analyzed w₁ = .ok v w₂ ∧
      r.seen = hashSetAdd v.analyzed h ∧ r.stop = v.shouldStop ∧
      (v.shouldStop = true ∨ pushApprovers h v.shouldBranch w₂ = .ok r.next w') := by
  obtain ⟨_, w₁, h₁, h₂⟩ := bind_eq_ok.mp hr
  obtain ⟨v, w₂, h₃, h₄⟩ := bind_eq_ok.mp h₂
  refine ⟨w₁, v, w₂, h₁, h₃, ?_⟩
  cases hv : v.shouldStop with
  | true =>
    simp only [hv, if_true] at h₄
    cases h₄
    exact ⟨rfl, rfl, .inl rfl⟩
  | false =>
    simp only [hv, Bool.false_eq_true, if_false] at h₄
    obtain ⟨next, w₃, h₅, h₆⟩ := bind_eq_ok.mp h₄
    cases h₆
    exact ⟨rfl, rfl, .inr h₅⟩

/-! ## Rounds

The model bounds the loops of both walks. For the functions the callers hand in
the bound is never met: a walk that fails does so where the code fails. -/

/-- **A function a walk can call**: it changes validities at most, leaves the pack
alone, drops no analyzed hash, and runs no loop of its own for ever. -/
structure Visitor (func : Hash → List Hash → WalkM Hash δ (Verdict Hash)) : Prop where
  keeps : ∀ h analyzed, Keeps (OnTangle Tangle.SameCore) (func h analyzed)
  pack : ∀ {h analyzed w v w'}, func h analyzed w = .ok v w' → w'.pack = w.pack
  grows : ∀ {h analyzed w v w'}, func h analyzed w = .ok v w' → ∀ y ∈ analyzed, y ∈ v.analyzed
  rounds : ∀ {h analyzed w w'}, func h analyzed w ≠ .error .outOfRounds w'

theorem loadPack_ne_outOfRounds : loadPack h w ≠ .error .outOfRounds w' := by
  intro hbad
  rcases bind_eq_error.mp hbad with h₁ | ⟨o, w₁, -, h₂⟩
  · obtain ⟨t₁, ht₁, -⟩ := zoom_eq_error.mp h₁
    cases Tangle.read_error ht₁
  · cases o <;> cases h₂

theorem visitPast_ne_outOfRounds (hf : Visitor func) :
    visitPast func h analyzed w ≠ .error .outOfRounds w' := by
  intro hbad
  rcases bind_eq_error.mp hbad with h₁ | ⟨_, w₁, -, h₂⟩
  · exact loadPack_ne_outOfRounds h₁
  rcases bind_eq_error.mp h₂ with h₃ | ⟨v, w₂, -, h₄⟩
  · exact hf.rounds h₃
  split at h₄
  · cases h₄
  rcases bind_eq_error.mp h₄ with h₅ | ⟨next, w₃, -, h₆⟩
  · unfold pushApprovees at h₅
    split at h₅
    · split at h₅ <;> cases h₅
    · cases h₅
  · cases h₆

theorem visitFuture_ne_outOfRounds (hf : Visitor func) :
    visitFuture func h analyzed w ≠ .error .outOfRounds w' := by
  intro hbad
  rcases bind_eq_error.mp hbad with h₁ | ⟨_, w₁, -, h₂⟩
  · exact loadPack_ne_outOfRounds h₁
  rcases bind_eq_error.mp h₂ with h₃ | ⟨v, w₂, -, h₄⟩
  · exact hf.rounds h₃
  split at h₄
  · cases h₄
  rcases bind_eq_error.mp h₄ with h₅ | ⟨next, w₃, -, h₆⟩
  · unfold pushApprovers at h₅
    split at h₅
    · obtain ⟨t₁, ht₁, -⟩ := zoom_eq_error.mp h₅
      cases Tangle.read_error ht₁
    · cases h₅
  · cases h₆

/-- The hashes a walk to the past can come to: where it starts, and the approvees
of the stored transactions. -/
def pastUniverse (t : Tangle Hash) (entryPoint : Hash) : List Hash :=
  entryPoint :: t.core.rows.flatMap fun tx => [tx.trunk, tx.branch]

/-- A walk to the past stays in its universe, and so does its buffer. -/
structure InPast (t : Tangle Hash) (entryPoint : Hash) (stack : List Hash) (w : Walk Hash δ) :
    Prop where
  same : Tangle.SameCore t w.tangle
  buffer : ∀ tx, w.pack.model = some tx → tx.core ∈ t.core.rows
  stack : ∀ x ∈ stack, x ∈ pastUniverse t entryPoint

theorem inPast_invariant (hf : Visitor func) (t : Tangle Hash) (entryPoint : Hash) :
    Invariant (visitPast func) fun stack _ w => InPast t entryPoint stack w where
  skip := fun hw _ => ⟨hw.same, hw.buffer, fun x hx => hw.stack x (List.mem_cons_of_mem _ hx)⟩
  push := by
    rintro h stack seen w r w' hw - hr hstop
    obtain ⟨w₁, v, hload, hfunc, -, -, hnext⟩ := visitPast_ok hr hstop
    obtain ⟨hs, -, hp⟩ := loadPack_ok hload
    have hbuf : ∀ tx, w'.pack.model = some tx → tx.core ∈ t.core.rows := by
      intro tx htx
      rw [hf.pack hfunc, hp] at htx
      cases hfind : w.tangle.transactions.find? h with
      | none =>
        rw [hfind] at htx
        exact hw.buffer tx htx
      | some tx' =>
        rw [hfind] at htx
        obtain rfl : tx' = tx := Option.some.inj htx
        rw [← hw.same.1]
        exact List.mem_map_of_mem (Table.mem_of_find? hfind)
    refine ⟨hw.same.trans (hs.sameCore.trans ((hf.keeps h seen).of_ok hfunc)), hbuf, ?_⟩
    intro x hx
    rcases List.mem_append.mp hx with hx | hx
    · rcases hnext with ⟨-, hn⟩ | ⟨tx, hm, -, hn⟩
      · rw [hn] at hx
        cases hx
      · rw [hn] at hx
        refine List.mem_cons_of_mem _ (List.mem_flatMap.mpr ⟨tx.core, hbuf tx hm, hx⟩)
    · exact hw.stack x (List.mem_cons_of_mem _ hx)

/-- **A walk to the past has rounds enough.** -/
theorem dfsToPast_ne_outOfRounds (hf : Visitor func) (hw : w.pack.model = none) :
    dfsToPast func entryPoint genesis analyzed w ≠ .error .outOfRounds w' := by
  refine search_ne_out (inPast_invariant hf w.tangle entryPoint)
    (pastUniverse w.tangle entryPoint) 2 ?_ (fun _ => visitPast_ne_outOfRounds hf) ?_ ?_
  · rintro x seen s r s' ⟨stack, hin, -⟩ hr hstop
    obtain ⟨w₁, v, hload, hfunc, -, hseen, hnext⟩ := visitPast_ok hr hstop
    refine ⟨.inr ⟨hin.stack x List.mem_cons_self, ?_⟩, ?_, fun y hy => ?_⟩
    · rcases hnext with ⟨-, hn⟩ | ⟨tx, -, -, hn⟩ <;> simp [hn]
    · simp [hseen]
    · rw [hseen, mem_hashSetAdd]
      exact .inl (hf.grows hfunc y hy)
  · refine ⟨.refl _, fun tx htx => ?_, by simp [pastUniverse]⟩
    rw [hw] at htx
    cases htx
  · have hle : unseen (pastUniverse w.tangle entryPoint) (hashSetAdd analyzed genesis) ≤
        2 * w.tangle.transactions.rows.length + 1 := by
      refine List.countP_le_length.trans (le_of_eq ?_)
      simp [pastUniverse, Tangle.core, Table.update, Nat.mul_comm, Function.comp_def]
    rw [pastRounds, List.length_singleton]
    omega

/-- A walk to the future stays among the stored transactions. -/
structure InFuture (t : Tangle Hash) (entryPoint : Hash) (stack : List Hash) (w : Walk Hash δ) :
    Prop where
  same : Tangle.SameCore t w.tangle
  stack : ∀ x ∈ stack, x ∈ entryPoint :: t.transactions.keys

theorem pushApprovers_ok {branch : Bool} {next : List Hash}
    (hr : pushApprovers h branch w = .ok next w') :
    Tangle.SameTables w.tangle w'.tangle ∧ w'.pack = w.pack ∧ w'.data = w.data ∧
      next = if branch then w.tangle.approvers h else [] := by
  unfold pushApprovers at hr
  cases branch with
  | false =>
    cases hr
    exact ⟨.refl _, rfl, rfl, rfl⟩
  | true =>
    rw [if_pos rfl] at hr
    obtain ⟨t₁, ht₁, rfl⟩ := zoom_eq_ok.mp hr
    obtain ⟨rfl, hs⟩ := Tangle.loadHashesOfApprovers_ok ht₁
    exact ⟨hs, rfl, rfl, rfl⟩

theorem inFuture_invariant (hf : Visitor func) (t : Tangle Hash) (entryPoint : Hash) :
    Invariant (visitFuture func) fun stack _ w => InFuture t entryPoint stack w where
  skip := fun hw _ => ⟨hw.same, fun x hx => hw.stack x (List.mem_cons_of_mem _ hx)⟩
  push := by
    rintro h stack seen w r w' hw - hr hstop
    obtain ⟨w₁, v, w₂, hload, hfunc, -, hst, hnext⟩ := visitFuture_ok hr
    have hpush := hnext.resolve_left fun hv => by rw [hst, hv] at hstop; cases hstop
    obtain ⟨hs₃, -, -, hn⟩ := pushApprovers_ok hpush
    have hs₂ : Tangle.SameCore t w₂.tangle :=
      hw.same.trans ((loadPack_ok hload).1.sameCore.trans ((hf.keeps h seen).of_ok hfunc))
    refine ⟨hs₂.trans hs₃.sameCore, fun x hx => ?_⟩
    rcases List.mem_append.mp hx with hx | hx
    · rw [hn] at hx
      split at hx
      · rw [Tangle.approvers_of_sameCore hs₂] at hx
        exact List.mem_cons_of_mem _ (Tangle.mem_keys_of_mem_approvers hx)
      · cases hx
    · exact hw.stack x (List.mem_cons_of_mem _ hx)

/-- **A walk to the future has rounds enough.** -/
theorem dfsToFuture_ne_outOfRounds (hf : Visitor func) :
    dfsToFuture func entryPoint analyzed w ≠ .error .outOfRounds w' := by
  refine search_ne_out (inFuture_invariant hf w.tangle entryPoint)
    (entryPoint :: w.tangle.transactions.keys) w.tangle.transactions.rows.length ?_
    (fun _ => visitFuture_ne_outOfRounds hf) ?_ ?_
  · rintro x seen s r s' ⟨stack, hin, -⟩ hr hstop
    obtain ⟨w₁, v, w₂, hload, hfunc, hseen, hst, hnext⟩ := visitFuture_ok hr
    have hpush := hnext.resolve_left fun hv => by rw [hst, hv] at hstop; cases hstop
    obtain ⟨-, -, -, hn⟩ := pushApprovers_ok hpush
    refine ⟨.inr ⟨hin.stack x List.mem_cons_self, ?_⟩, by simp [hseen], fun y hy => ?_⟩
    · rw [hn]
      split
      · have hs₂ : Tangle.SameCore w.tangle w₂.tangle :=
          hin.same.trans ((loadPack_ok hload).1.sameCore.trans ((hf.keeps x seen).of_ok hfunc))
        rw [Tangle.approvers_of_sameCore hs₂]
        exact Tangle.length_approvers_le _ _
      · exact Nat.zero_le _
    · rw [hseen, mem_hashSetAdd]
      exact .inl (hf.grows hfunc y hy)
  · exact ⟨.refl _, by simp⟩
  · have hle : unseen (entryPoint :: w.tangle.transactions.keys) analyzed ≤
        w.tangle.transactions.rows.length + 1 := by
      refine List.countP_le_length.trans (le_of_eq ?_)
      rw [List.length_cons, Table.keys, List.length_map]
    have := Nat.mul_le_mul_left w.tangle.transactions.rows.length hle
    rw [futureRounds, List.length_singleton]
    omega

/-! ## When nothing fails -/

/-- Nothing fails from here on, and a pack that was loaded holds a row. -/
structure Ready (w : Walk Hash δ) : Prop where
  quiet : w.tangle.Quiet
  loaded : w.pack.loaded = true → w.pack.model ≠ none

/-- A function that returns when nothing fails, and branches on a row only. -/
def Answers (func : Hash → List Hash → WalkM Hash δ (Verdict Hash)) : Prop :=
  ∀ h analyzed w, Ready w → ∃ v w', func h analyzed w = .ok v w' ∧ Ready w' ∧
    (v.shouldBranch = true → w'.pack.model ≠ none)

theorem succeeds_loadPack (h : Hash) : Succeeds Ready (loadPack h : WalkM Hash δ Unit) := by
  intro w hw
  refine ⟨(), _, loadPack_of_nil hw.quiet h, hw.quiet, ?_⟩
  cases w.tangle.transactions.find? h <;> simp

theorem succeeds_visitPast (hf : Answers func) (h : Hash) (analyzed : List Hash) :
    Succeeds Ready (visitPast func h analyzed) := by
  intro w hw
  obtain ⟨_, w₁, h₁, hw₁⟩ := succeeds_loadPack h w hw
  obtain ⟨v, w₂, h₂, hw₂, hbr⟩ := hf h analyzed w₁ hw₁
  rw [visitPast, bind_apply_ok h₁, bind_apply_ok h₂]
  split
  · exact ⟨_, w₂, rfl, hw₂⟩
  · cases hb : v.shouldBranch with
    | false => exact ⟨_, w₂, rfl, hw₂⟩
    | true =>
      obtain ⟨tx, hm⟩ := Option.ne_none_iff_exists'.mp (hbr hb)
      have hpush : pushApprovees true w₂ = .ok [tx.trunk, tx.branch] w₂ := by
        unfold pushApprovees
        rw [if_pos rfl, hm]
      exact ⟨_, w₂, by rw [bind_apply_ok hpush]; rfl, hw₂⟩

theorem succeeds_visitFuture (hf : Answers func) (h : Hash) (analyzed : List Hash) :
    Succeeds Ready (visitFuture func h analyzed) := by
  intro w hw
  obtain ⟨_, w₁, h₁, hw₁⟩ := succeeds_loadPack h w hw
  obtain ⟨v, w₂, h₂, hw₂, -⟩ := hf h analyzed w₁ hw₁
  rw [visitFuture, bind_apply_ok h₁, bind_apply_ok h₂]
  split
  · exact ⟨_, w₂, rfl, hw₂⟩
  · exact ⟨_, w₂, by rw [bind_apply_ok (pushApprovers_of_nil hw₂.quiet h v.shouldBranch)]; rfl, hw₂⟩

/-- **A walk to the past returns when nothing fails.** -/
theorem dfsToPast_returns (entryPoint genesis : Hash) (analyzed : List Hash)
    (hv : Visitor func) (hf : Answers func) (hw : Ready w) (hm : w.pack.model = none) :
    ∃ seen w', dfsToPast func entryPoint genesis analyzed w = .ok seen w' ∧ Ready w' :=
  search_returns (succeeds_visitPast hf) hw fun _ => dfsToPast_ne_outOfRounds hv hm

/-- **A walk to the future returns when nothing fails.** -/
theorem dfsToFuture_returns (entryPoint : Hash) (analyzed : List Hash) (hv : Visitor func)
    (hf : Answers func) (hw : Ready w) :
    ∃ seen w', dfsToFuture func entryPoint analyzed w = .ok seen w' ∧ Ready w' :=
  search_returns (succeeds_visitFuture hf) hw fun _ => dfsToFuture_ne_outOfRounds hv

omit [DecidableEq Hash] in
theorem ready_start (hq : t.Quiet) (d : δ) : Ready (⟨t, ⟨none, false⟩, d⟩ : Walk Hash δ) :=
  ⟨hq, fun h => by cases h⟩

end Walk

end Entangled
