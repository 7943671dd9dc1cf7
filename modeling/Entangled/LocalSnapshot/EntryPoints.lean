import Entangled.LocalSnapshot.Service
/-!
# Solid entry points

What a node that starts from a snapshot needs to know is its border: the
transactions confirmed below the target that one confirmed above it approves.
The service looks for them from the side of the past, and keeps those that are
no orphans: some approver must lead, through transactions that no milestone has
confirmed, to one younger than the target. A border transaction has a confirmed
approver by definition, and that one counts for nothing in the test, so not every
border survives.
-/

namespace Entangled

open Prog Search

variable {Hash : Type} [DecidableEq Hash] [HashBytes Hash]

namespace Tangle

variable {t t' : Tangle Hash} {ts : UInt64} {S S' : EntryPoints Hash} {h x z : Hash}
  {tx : Transaction Hash} {k : ℕ}

/-! ## The orphan test -/

/-- Younger than the target. -/
def Young (ts : UInt64) (tx : Transaction Hash) : Prop :=
  ts * 1000 < tx.attachmentTimestamp ∨ ts < tx.timestamp

/-- The approvers a walk goes on to: those of unconfirmed transactions. -/
def unconfirmedApprovers (t : Tangle Hash) (h : Hash) : List Hash :=
  match t.transactions.find? h with
  | none => []
  | some tx => if tx.snapshotIndex = 0 then t.approvers h else []

/-- A transaction that ends the orphan test. -/
def Stops (t : Tangle Hash) (ts : UInt64) (S : EntryPoints Hash) (h : Hash) : Prop :=
  ∃ tx, t.transactions.find? h = some tx ∧ tx.snapshotIndex = 0 ∧ (h ∈ S.keys ∨ Young ts tx)

/-- From `z`, unconfirmed transactions lead to one that ends the test. -/
def LeadsToStop (t : Tangle Hash) (ts : UInt64) (S : EntryPoints Hash) (z : Hash) : Prop :=
  ∃ w, Reach t.unconfirmedApprovers [] z w ∧ Stops t ts S w

/-- One round of the orphan test, when nothing fails. -/
theorem visit_notOrphan (ts : UInt64) (S : EntryPoints Hash) (hq : t.faults = fun _ => [])
    (h : Hash) (seen : List Hash)
    {w : Walk Hash Bool} (hw : w.tangle = t) :
    ∃ w', w'.tangle = t ∧
      ((Stops t ts S h ∧ w'.data = false ∧
        Walk.visitFuture (notOrphanFunc ts S) h seen w = .ok ⟨[], hashSetAdd seen h, true⟩ w') ∨
       (¬ Stops t ts S h ∧ w'.data = w.data ∧
        Walk.visitFuture (notOrphanFunc ts S) h seen w =
          .ok ⟨t.unconfirmedApprovers h, hashSetAdd seen h, false⟩ w')) := by
  subst hw
  rw [Walk.visitFuture, bind_apply_ok (Walk.loadPack_of_nil hq h)]
  cases hf : w.tangle.transactions.find? h with
  | none =>
    refine ⟨{ w with pack := ⟨w.pack.model, false⟩ }, rfl, .inr ⟨?_, rfl, ?_⟩⟩
    · rintro ⟨tx, hf', -⟩
      rw [hf] at hf'
      cases hf'
    · rw [unconfirmedApprovers, hf]
      rfl
  | some tx =>
    by_cases hidx : tx.snapshotIndex = 0
    · by_cases hstop : h ∈ S.keys ∨ ts * 1000 < tx.attachmentTimestamp ∨ ts < tx.timestamp
      · refine ⟨{ w with pack := ⟨some tx, true⟩, data := false }, rfl,
          .inl ⟨⟨tx, hf, hidx, hstop⟩, rfl, ?_⟩⟩
        have hfunc : notOrphanFunc ts S h seen { w with pack := ⟨some tx, true⟩ } =
            .ok ⟨true, true, seen⟩ { w with pack := ⟨some tx, true⟩, data := false } := by
          rw [notOrphanFunc, gets_bind]
          simp only [Bool.true_eq_false, if_false, hidx, ne_eq, not_true_eq_false]
          rw [if_pos hstop]
          rfl
        rw [bind_apply_ok hfunc]
        rfl
      · have hfunc : notOrphanFunc ts S h seen { w with pack := ⟨some tx, true⟩ } =
            .ok ⟨true, false, seen⟩ { w with pack := ⟨some tx, true⟩ } := by
          rw [notOrphanFunc, gets_bind]
          simp only [Bool.true_eq_false, if_false, hidx, ne_eq, not_true_eq_false]
          rw [if_neg hstop]
          rfl
        refine ⟨{ w with pack := ⟨some tx, true⟩ }, rfl, .inr ⟨?_, rfl, ?_⟩⟩
        · rintro ⟨tx', hf', -, hs⟩
          rw [hf] at hf'
          exact hstop (Option.some.inj hf' ▸ hs)
        · rw [bind_apply_ok hfunc, if_neg Bool.false_ne_true,
            bind_apply_ok (Walk.pushApprovers_of_nil (w := { w with pack := ⟨some tx, true⟩ }) hq h
              true), unconfirmedApprovers, hf]
          simp [hidx]
    · have hfunc : notOrphanFunc ts S h seen { w with pack := ⟨some tx, true⟩ } =
          .ok ⟨false, false, seen⟩ { w with pack := ⟨some tx, true⟩ } := by
        rw [notOrphanFunc, gets_bind]
        simp [hidx]
      refine ⟨{ w with pack := ⟨some tx, true⟩ }, rfl, .inr ⟨?_, rfl, ?_⟩⟩
      · rintro ⟨tx', hf', hz, -⟩
        rw [hf] at hf'
        exact hidx (Option.some.inj hf' ▸ hz)
      · rw [bind_apply_ok hfunc, if_neg Bool.false_ne_true,
          bind_apply_ok (Walk.pushApprovers_of_nil (w := { w with pack := ⟨some tx, true⟩ }) hq h
            false), unconfirmedApprovers, hf]
        simp [hidx]

/-- The graph the test walks over: as far as unconfirmed transactions go, and not
past one that ends it. -/
noncomputable def testSucc (t : Tangle Hash) (ts : UInt64) (S : EntryPoints Hash) (h : Hash) :
    List Hash :=
  open Classical in if Stops t ts S h then [] else t.unconfirmedApprovers h

/-- A path to the end of the test can be cut at the first such transaction. -/
theorem exists_testReach (ts : UInt64) (S : EntryPoints Hash) {w : Hash}
    (h : Reach t.unconfirmedApprovers [] z w) :
    Reach (testSucc t ts S) [] z w ∨ ∃ x, Reach (testSucc t ts S) [] z x ∧ Stops t ts S x := by
  induction h with
  | root hn => exact .inl (.root hn)
  | @step x y _ hy hn ih =>
    rcases ih with hx | hx
    · by_cases hs : Stops t ts S x
      · exact .inr ⟨x, hx, hs⟩
      · refine .inl (.step hx ?_ hn)
        rw [testSucc, if_neg hs]
        exact hy
    · exact .inr hx

theorem testReach_mono {w : Hash} (h : Reach (testSucc t ts S) [] z w) :
    Reach t.unconfirmedApprovers [] z w := by
  refine Reach.mono (fun x _ y hy => ?_) (fun _ _ => List.not_mem_nil) h
  unfold testSucc at hy
  split at hy
  · cases hy
  · exact hy

/-- What the test does at a transaction, in any store. -/
theorem notOrphanFunc_cases (ts : UInt64) (S : EntryPoints Hash) (h : Hash) (analyzed : List Hash)
    (w : Walk Hash Bool) :
    (∃ branch, notOrphanFunc ts S h analyzed w = .ok ⟨branch, false, analyzed⟩ w) ∨
      notOrphanFunc ts S h analyzed w = .ok ⟨true, true, analyzed⟩ { w with data := false } ∨
      notOrphanFunc ts S h analyzed w = .error .undefinedRead w := by
  rw [notOrphanFunc, gets_bind]
  split
  · exact .inl ⟨false, rfl⟩
  · cases w.pack.model with
    | none => exact .inr (.inr rfl)
    | some tx =>
      dsimp only
      split
      · exact .inl ⟨false, rfl⟩
      · split
        · exact .inr (.inl rfl)
        · exact .inl ⟨true, rfl⟩

theorem visitor_notOrphan (ts : UInt64) (S : EntryPoints Hash) :
    Walk.Visitor (notOrphanFunc ts S) where
  keeps := by
    intro h analyzed w
    obtain ⟨_, hr⟩ | hr | hr := notOrphanFunc_cases ts S h analyzed w <;> rw [final, hr] <;>
      exact .refl w.tangle
  pack := by
    intro h analyzed w v w' hv
    obtain ⟨_, hr⟩ | hr | hr := notOrphanFunc_cases ts S h analyzed w <;> rw [hr] at hv <;>
      cases hv <;> rfl
  grows := by
    intro h analyzed w v w' hv y hy
    obtain ⟨_, hr⟩ | hr | hr := notOrphanFunc_cases ts S h analyzed w <;> rw [hr] at hv <;>
      cases hv <;> exact hy
  rounds := by
    intro h analyzed w w' hv
    obtain ⟨_, hr⟩ | hr | hr := notOrphanFunc_cases ts S h analyzed w <;> rw [hr] at hv <;> cases hv

/-- What the test has established while it runs. -/
structure Testing (t : Tangle Hash) (ts : UInt64) (S : EntryPoints Hash) (z : Hash) (b : Bool)
    (stack seen : List Hash) (w : Walk Hash Bool) : Prop where
  tangle : w.tangle = t
  data : w.data = b
  explored : Explored (testSucc t ts S) [] z stack seen
  passed : ∀ x ∈ seen, ¬ Stops t ts S x

theorem testing_invariant (ts : UInt64) (S : EntryPoints Hash) (hq : t.faults = fun _ => [])
    (z : Hash) (b : Bool) :
    Invariant (Walk.visitFuture (notOrphanFunc ts S)) (Testing t ts S z b) where
  skip := by
    rintro h stack seen w hw hmem
    exact ⟨hw.tangle, hw.data, hw.explored.skip (by simpa using hmem), hw.passed⟩
  push := by
    rintro h stack seen w v w' hw hfresh hv hstop
    obtain ⟨w₁, ht, ⟨hs, -, hr⟩ | ⟨hs, hdata, hr⟩⟩ :=
      visit_notOrphan ts S hq h seen hw.tangle
    · rw [hr] at hv
      cases hv
      cases hstop
    · rw [hr] at hv
      cases hv
      rw [hashSetAdd_of_not_mem hfresh]
      have hsucc : testSucc t ts S h = t.unconfirmedApprovers h := if_neg hs
      refine ⟨ht, hdata.trans hw.data, ?_, fun x hx => ?_⟩
      · refine hw.explored.push (by simpa using hfresh) (fun y hy => hsucc ▸ hy) fun y hy => ?_
        exact ⟨h, by simp, hsucc.symm ▸ hy⟩
      · rcases List.mem_append.mp hx with hx | hx
        · exact hw.passed x hx
        · exact List.mem_singleton.mp hx ▸ hs

/-- **The orphan test decides** whether unconfirmed approvers lead to a
transaction that ends it; it returns when nothing fails. -/
theorem run_notOrphan (hq : t.faults = fun _ => []) (ts : UInt64) (S : EntryPoints Hash)
    (z : Hash) (b : Bool) :
    ∃ seen b', Walk.run b (Walk.dfsToFuture (notOrphanFunc ts S) z []) t = .ok (seen, b') t ∧
      (b' = false ↔ b = false ∨ LeadsToStop t ts S z) := by
  have hinv := testing_invariant ts S hq z b
  have hstart : Testing t ts S z b [z] [] ⟨t, ⟨none, false⟩, b⟩ :=
    ⟨rfl, rfl, .start, by simp⟩
  cases hr : Walk.dfsToFuture (notOrphanFunc ts S) z [] ⟨t, ⟨none, false⟩, b⟩ with
  | error e w =>
    exfalso
    have hvisit : ∀ {x seen s s' e}, Reaches (Testing t ts S z b) x seen s →
        Walk.visitFuture (notOrphanFunc ts S) x seen s ≠ .error e s' := by
      rintro x seen s s' e ⟨stack, hw, -⟩ hv
      obtain ⟨w₁, -, ⟨-, -, hr⟩ | ⟨-, -, hr⟩⟩ :=
        visit_notOrphan ts S hq x seen hw.tangle
      · rw [hr] at hv; cases hv
      · rw [hr] at hv; cases hv
    rcases search_error hinv hstart hr with rfl | ⟨x, seen', w₀, hx, hv⟩
    · exact Walk.dfsToFuture_ne_outOfRounds (visitor_notOrphan ts S) hr
    · exact hvisit hx hv
  | ok seen w =>
    rcases search_run hinv hstart hr with hend | ⟨x, seen', w₀, v, ⟨stack, hw, -⟩, hv, hstop, -⟩
    · refine ⟨seen, b, Walk.run_eq_ok.mpr ⟨w, hr, hend.data, hend.tangle⟩, ?_⟩
      refine ⟨.inl, ?_⟩
      rintro (hb | ⟨y, hy, hys⟩)
      · exact hb
      · exfalso
        rcases exists_testReach ts S hy with hy' | ⟨x, hx, hxs⟩
        · exact hend.passed y (hend.explored.mem_iff.mpr hy') hys
        · exact hend.passed x (hend.explored.mem_iff.mpr hx) hxs
    · obtain ⟨w₁, ht, ⟨hs, hdata, hr'⟩ | ⟨-, -, hr'⟩⟩ :=
        visit_notOrphan ts S hq x seen' hw.tangle
      · rw [hr'] at hv
        cases hv
        refine ⟨seen, false, Walk.run_eq_ok.mpr ⟨w, hr, hdata, ht⟩, ?_⟩
        have hx := (hw.explored.pending x List.mem_cons_self).resolve_left List.not_mem_nil
        exact iff_of_true rfl (.inr ⟨x, testReach_mono hx, hs⟩)
      · rw [hr'] at hv
        cases hv
        cases hstop

/-! ## Candidates -/

theorem LeadsToStop.mono (hS : ∀ x ∈ S.keys, x ∈ S'.keys) (h : LeadsToStop t ts S z) :
    LeadsToStop t ts S' z := by
  obtain ⟨w, hw, tx, hf, hidx, hs⟩ := h
  exact ⟨w, hw, tx, hf, hidx, hs.imp_left (hS w)⟩

/-- The loop over the approvers adds its hash, once one of them passes. -/
theorem addEntryPointLoop_ok (hq : t.faults = fun _ => []) (ts : UInt64) (h : Hash) (index : ℕ)
    (zs : List Hash) (b : Bool) (S : EntryPoints Hash) (hb : b = false → h ∈ S.keys) :
    ∃ S', addEntryPointLoop ts h index zs b S t = .ok S' t ∧
      ∀ x, x ∈ S'.keys ↔ x ∈ S.keys ∨ (x = h ∧ ∃ z ∈ zs, LeadsToStop t ts S z) := by
  induction zs generalizing b S with
  | nil => exact ⟨S, rfl, fun x => by simp⟩
  | cons z zs ih =>
    obtain ⟨seen, b', hr, hb'⟩ := run_notOrphan hq ts S z b
    have hout : outcome (Walk.run b (Walk.dfsToFuture (notOrphanFunc ts S) z [])) t =
        .ok (.ok (seen, b')) t := outcome_eq_ok.mpr (.inl ⟨_, rfl, hr⟩)
    rw [addEntryPointLoop, bind_apply_ok hout]
    cases b' with
    | true =>
      have hno : ¬ LeadsToStop t ts S z := fun hl => by simpa using hb'.mpr (.inr hl)
      obtain ⟨S', hr', hmem⟩ := ih true S (fun h => by cases h)
      refine ⟨S', hr', fun x => ?_⟩
      rw [hmem x]
      simp [hno]
    | false =>
      have hin : h ∈ (S.insert (h, index)).keys := Table.mem_keys_insert.mpr (.inr rfl)
      obtain ⟨S', hr', hmem⟩ := ih false (S.insert (h, index)) (fun _ => hin)
      refine ⟨S', hr', fun x => ?_⟩
      have hin' : h ∈ S.keys ∨ LeadsToStop t ts S z := (hb'.mp rfl).imp_left hb
      rw [hmem x, Table.mem_keys_insert]
      constructor
      · rintro ((hx | rfl) | ⟨rfl, -⟩)
        · exact .inl hx
        · exact hin'.imp_right fun hl => ⟨rfl, z, List.mem_cons_self, hl⟩
        · exact hin'.imp_right fun hl => ⟨rfl, z, List.mem_cons_self, hl⟩
      · rintro (hx | ⟨rfl, -⟩)
        · exact .inl (.inl hx)
        · exact .inl (.inr rfl)

/-- Some approver leads to a transaction that ends the test. -/
def Approved (t : Tangle Hash) (ts : UInt64) (S : EntryPoints Hash) (h : Hash) : Prop :=
  ∃ z ∈ t.approvers h, LeadsToStop t ts S z

/-- **A candidate is listed when it is no orphan.** -/
theorem addEntryPointIfNotOrphan_ok (hq : t.faults = fun _ => []) (ts : UInt64) (h : Hash)
    (index : ℕ) (S : EntryPoints Hash) :
    ∃ S', addEntryPointIfNotOrphan ts h index S t = .ok S' t ∧
      ∀ x, x ∈ S'.keys ↔ x ∈ S.keys ∨ (x = h ∧ Approved t ts S h) := by
  have hload : outcome (loadHashesOfApprovers h) t = .ok (.ok (t.approvers h)) t := by
    refine outcome_eq_ok.mpr (.inl ⟨_, rfl, ?_⟩)
    rw [loadHashesOfApprovers, bind_apply_ok (attempt_of_nil hq), gets_apply]
  obtain ⟨S', hr, hmem⟩ := addEntryPointLoop_ok hq ts h index (t.approvers h).reverse true S
    (fun h => by cases h)
  refine ⟨S', ?_, fun x => ?_⟩
  · rw [addEntryPointIfNotOrphan, bind_apply_ok hload]
    exact hr
  · rw [hmem x]
    simp only [Approved, List.mem_reverse]

/-! ## The walk of a milestone -/

/-- A transaction the walk of a milestone hands to the orphan test. -/
def Candidate (t : Tangle Hash) (genesis : Hash) (m : Milestone Hash) (h : Hash) : Prop :=
  Reach (t.confirmedApprovees m.index) [genesis] m.hash h ∧
    ∃ tx, t.transactions.find? h = some tx ∧ m.index ≤ tx.snapshotIndex

/-- A transaction confirmed above the target is listed before anything is tested. -/
theorem listConfirmedLater_ok (T : ℕ) (h : Hash) (tx : Transaction Hash)
    (w : Walk Hash (EntryPoints Hash)) :
    ∃ S₁, listConfirmedLater T h tx w = .ok () { w with data := S₁ } ∧
      ∀ x, x ∈ S₁.keys ↔ x ∈ w.data.keys ∨ (x = h ∧ T < tx.snapshotIndex) := by
  unfold listConfirmedLater
  split
  · rename_i hT
    refine ⟨w.data.insert (h, tx.snapshotIndex), rfl, fun x => ?_⟩
    rw [Table.mem_keys_insert]
    simp [hT]
  · rename_i hT
    exact ⟨w.data, rfl, fun x => by simp [hT]⟩

/-- One round of the walk of a milestone, when nothing fails. -/
theorem findEntryPointsFunc_ok (hq : t.faults = fun _ => []) {T : ℕ} {analyzed : List Hash}
    {v : Verdict Hash} {w w₁ w' : Walk Hash (EntryPoints Hash)} (hw : w.tangle = t)
    (hload : Walk.loadPack h w = .ok () w₁)
    (hr : findEntryPointsFunc T ts k h analyzed w₁ = .ok v w') :
    w'.tangle = t ∧ w'.pack = w₁.pack ∧ v.analyzed = analyzed ∧ v.shouldStop = false ∧
      (v.shouldBranch = true → ∃ tx, w'.pack.model = some tx ∧
        t.transactions.find? h = some tx ∧ k ≤ tx.snapshotIndex) ∧
      (v.shouldBranch = false → t.confirmedApprovees k h = []) ∧
      (∀ x ∈ w.data.keys, x ∈ w'.data.keys) ∧
      (∀ x ∈ w'.data.keys, x ∈ w.data.keys ∨ (x = h ∧ ∃ tx, t.transactions.find? h = some tx ∧
        (T < tx.snapshotIndex ∨ (k ≤ tx.snapshotIndex ∧ Approved t ts w.data h)))) ∧
      ∀ tx, t.transactions.find? h = some tx → k ≤ tx.snapshotIndex → Approved t ts w.data h →
        h ∈ w'.data.keys := by
  subst hw
  rw [Walk.loadPack_of_nil hq h] at hload
  cases hload
  rw [findEntryPointsFunc, gets_bind] at hr
  cases hf : w.tangle.transactions.find? h with
  | none =>
    simp only [hf, if_true] at hr
    cases hr
    refine ⟨rfl, rfl, rfl, rfl, ?_, fun _ => ?_, fun x hx => hx, fun x hx => .inl hx, ?_⟩
    · intro hb
      cases hb
    · rw [confirmedApprovees, hf]
    · intro tx hf'
      cases hf'
  | some tx =>
    simp only [hf, Bool.true_eq_false, if_false] at hr
    obtain ⟨S₁, hlist, hS₁⟩ := listConfirmedLater_ok T h tx { w with pack := ⟨some tx, true⟩ }
    dsimp only at hlist hS₁
    rw [bind_apply_ok hlist] at hr
    split at hr
    · rename_i hk
      obtain ⟨S₂, hadd, hS₂⟩ := addEntryPointIfNotOrphan_ok hq ts h k S₁
      have hadd' : Walk.onTangle (addEntryPointIfNotOrphan ts h k S₁)
          ({ w with pack := ⟨some tx, true⟩, data := S₁ } : Walk Hash (EntryPoints Hash)) =
          .ok S₂ { w with pack := ⟨some tx, true⟩, data := S₁ } :=
        zoom_eq_ok.mpr ⟨w.tangle, hadd, rfl⟩
      rw [gets_bind, bind_apply_ok hadd'] at hr
      cases hr
      refine ⟨rfl, rfl, rfl, rfl, fun _ => ⟨tx, rfl, rfl, hk⟩, fun hb => ?_, fun x hx => ?_,
        fun x hx => ?_, fun tx' hf' _ happ => ?_⟩
      · cases hb
      · exact (hS₂ x).mpr (.inl ((hS₁ x).mpr (.inl hx)))
      · rcases (hS₂ x).mp hx with hx | ⟨rfl, happ⟩
        · exact ((hS₁ x).mp hx).imp_right fun h => ⟨h.1, tx, rfl, .inl h.2⟩
        · -- listed as later than the target, or approved without that listing
          by_cases hT : T < tx.snapshotIndex
          · exact .inr ⟨rfl, tx, rfl, .inl hT⟩
          · refine .inr ⟨rfl, tx, rfl, .inr ⟨hk, ?_⟩⟩
            obtain ⟨z, hz, hl⟩ := happ
            refine ⟨z, hz, hl.mono fun y hy => ?_⟩
            exact ((hS₁ y).mp hy).elim id fun h => absurd h.2 hT
      · obtain ⟨z, hz, hl⟩ := happ
        exact (hS₂ h).mpr (.inr ⟨rfl, z, hz, hl.mono fun y hy => (hS₁ y).mpr (.inl hy)⟩)
    · rename_i hk
      cases hr
      refine ⟨rfl, rfl, rfl, rfl, fun hb => ?_, fun _ => ?_, fun x hx => ?_, fun x hx => ?_,
        fun tx' hf' hk' _ => ?_⟩
      · cases hb
      · rw [confirmedApprovees, hf]
        exact if_neg hk
      · exact (hS₁ x).mpr (.inl hx)
      · exact ((hS₁ x).mp hx).imp_right fun h => ⟨h.1, tx, rfl, .inl h.2⟩
      · cases hf'
        exact absurd hk' hk

/-- Where the walk of a milestone stands. `P` is what is known of every entry
point listed so far. -/
structure Finding (t : Tangle Hash) (genesis : Hash) (m : Milestone Hash) (ts : UInt64)
    (P : Hash → Prop) (S : EntryPoints Hash) (order stack : List Hash)
    (w : Walk Hash (EntryPoints Hash)) : Prop where
  tangle : w.tangle = t
  explored : Explored (t.confirmedApprovees m.index) [genesis] m.hash stack order
  kept : ∀ x ∈ S.keys, x ∈ w.data.keys
  found : ∀ x ∈ order, ∀ tx, t.transactions.find? x = some tx → m.index ≤ tx.snapshotIndex →
    Approved t ts S x → x ∈ w.data.keys
  known : ∀ x ∈ w.data.keys, P x

theorem Approved.mono (hS : ∀ x ∈ S.keys, x ∈ S'.keys) (h : Approved t ts S x) :
    Approved t ts S' x := by
  obtain ⟨z, hz, hl⟩ := h
  exact ⟨z, hz, hl.mono hS⟩

/-- What makes `P` hold of everything the walk of a milestone lists. -/
structure ListedBy (t : Tangle Hash) (genesis : Hash) (m : Milestone Hash) (T : ℕ) (ts : UInt64)
    (P : Hash → Prop) : Prop where
  later : ∀ x tx, t.transactions.find? x = some tx → T < tx.snapshotIndex → P x
  candidate : ∀ x (S : EntryPoints Hash), Candidate t genesis m x → (∀ y ∈ S.keys, P y) →
    Approved t ts S x → P x

theorem finding_invariant (hq : t.faults = fun _ => []) {genesis : Hash} {m : Milestone Hash}
    {T : ℕ} {P : Hash → Prop} (hP : ListedBy t genesis m T ts P) (S : EntryPoints Hash) :
    Invariant (Walk.visitPast (findEntryPointsFunc T ts m.index)) fun stack seen w =>
      ∃ order, seen = [genesis] ++ order ∧ Finding t genesis m ts P S order stack w where
  skip := by
    rintro h stack seen w ⟨order, rfl, hw⟩ hmem
    exact ⟨order, rfl, { hw with explored := hw.explored.skip hmem }⟩
  push := by
    rintro h stack seen w r w' ⟨order, rfl, hw⟩ hfresh hr hstop
    obtain ⟨w₁, v, hload, hfunc, -, hseen, hnext⟩ := Walk.visitPast_ok hr hstop
    obtain ⟨ht, -, han, -, hbr, hnobr, hmono, honly, hadd⟩ :=
      findEntryPointsFunc_ok hq hw.tangle hload hfunc
    have hreach : Reach (t.confirmedApprovees m.index) [genesis] m.hash h :=
      (hw.explored.pending h List.mem_cons_self).resolve_left
        fun hb => hfresh (List.mem_append_left _ hb)
    have hsucc : r.next = t.confirmedApprovees m.index h := by
      rcases hnext with ⟨hb, hn⟩ | ⟨tx, hm, hb, hn⟩
      · rw [hn, hnobr hb]
      · obtain ⟨tx', hm', hf, hk⟩ := hbr hb
        rw [hm] at hm'
        obtain rfl : tx = tx' := Option.some.inj hm'
        rw [hn, confirmedApprovees, hf]
        exact (if_pos hk).symm
    refine ⟨order ++ [h], ?_, ht, ?_, fun x hx => hmono x (hw.kept x hx), ?_, ?_⟩
    · rw [hseen, han, hashSetAdd_of_not_mem hfresh, List.append_assoc]
    · exact hw.explored.push hfresh (fun y hy => hsucc ▸ hy) fun y hy => ⟨h, by simp, hsucc ▸ hy⟩
    · intro x hx tx hf hk happ
      rcases List.mem_append.mp hx with hx | hx
      · exact hmono x (hw.found x hx tx hf hk happ)
      · obtain rfl : x = h := List.mem_singleton.mp hx
        exact hadd tx hf hk (happ.mono hw.kept)
    · intro x hx
      rcases honly x hx with hx | ⟨rfl, tx, hf, hT | ⟨hk, happ⟩⟩
      · exact hw.known x hx
      · exact hP.later x tx hf hT
      · exact hP.candidate x w.data ⟨hreach, tx, hf, hk⟩ hw.known happ

/-- **What the walk of a milestone lists**: every candidate that is no orphan, and
nothing that `P` does not cover. -/
theorem findEntryPointsAndUpdate_ok (hq : t.faults = fun _ => []) {conf : Conf Hash} {T : ℕ}
    {m : Milestone Hash} {P : Hash → Prop} (hP : ListedBy t conf.genesisHash m T ts P)
    (hS : ∀ x ∈ S.keys, P x)
    (hr : findEntryPointsAndUpdate conf T ts m S t = .ok S' t') :
    t' = t ∧ (∀ x ∈ S.keys, x ∈ S'.keys) ∧
      (∀ x, Candidate t conf.genesisHash m x → Approved t ts S x → x ∈ S'.keys) ∧
      ∀ x ∈ S'.keys, P x := by
  obtain ⟨⟨seen, data⟩, t₁, h₁, h₂⟩ := bind_eq_ok.mp hr
  cases h₂
  obtain ⟨w, hw, rfl, rfl⟩ := Walk.run_eq_ok.mp h₁
  have hinv := finding_invariant hq hP S
  have hstart : Finding t conf.genesisHash m ts P S [] [m.hash] ⟨t, ⟨none, false⟩, S⟩ :=
    ⟨rfl, .start, fun x hx => hx, by simp, hS⟩
  rcases search_run hinv ⟨[], rfl, hstart⟩ hw with
    ⟨order, rfl, hend⟩ | ⟨x, seen', w₀, v, ⟨stack, ⟨order, rfl, hw₀⟩, -⟩, hv, hstop, -⟩
  · refine ⟨hend.tangle, hend.kept, ?_, hend.known⟩
    rintro x ⟨hreach, tx, hf, hk⟩ happ
    exact hend.found x (hend.explored.mem_iff.mpr hreach) tx hf hk happ
  · -- the function of the walk does not stop it
    exfalso
    obtain ⟨_, w₁, h₃, h₄⟩ := bind_eq_ok.mp hv
    obtain ⟨v', w₂, h₅, h₆⟩ := bind_eq_ok.mp h₄
    obtain ⟨-, -, -, hgo, -⟩ := findEntryPointsFunc_ok hq hw₀.tangle h₃ h₅
    simp only [hgo, Bool.false_eq_true, if_false] at h₆
    obtain ⟨next, w₃, h₇, h₈⟩ := bind_eq_ok.mp h₆
    cases h₈
    cases hstop

/-! ## All milestones of the range -/

/-- A milestone whose cone the service looks at. The one with index 1 is never
looked at. -/
def Processed (t : Tangle Hash) (initialIndex : ℕ) (target m : Milestone Hash) : Prop :=
  initialIndex < m.index ∧ 1 < m.index ∧ (m = target ∨ (m.index < target.index ∧
    ∃ row, t.milestones.find? m.index = some row ∧ row.milestone = m))

omit [DecidableEq Hash] in
theorem processed_next {i : ℕ} {prev m : Milestone Hash} {row : MilestoneRow Hash}
    (hf : t.milestones.find? (prev.index - 1) = some row) (hm : Processed t i prev m) :
    m = prev ∨ Processed t i row.milestone m := by
  obtain ⟨h₁, h₂, rfl | ⟨hlt, row', hf', rfl⟩⟩ := hm
  · exact .inl rfl
  · refine .inr ⟨h₁, h₂, ?_⟩
    have hidx := Milestones.index_of_find? hf
    by_cases heq : row'.milestone.index = prev.index - 1
    · rw [heq, hf] at hf'
      exact .inl (congrArg MilestoneRow.milestone (Option.some.inj hf').symm)
    · exact .inr ⟨by omega, row', hf', rfl⟩

omit [DecidableEq Hash] in
theorem processed_of_next {i : ℕ} {prev m : Milestone Hash} {row : MilestoneRow Hash}
    (hpos : 0 < prev.index) (hf : t.milestones.find? (prev.index - 1) = some row)
    (hm : Processed t i row.milestone m) : Processed t i prev m := by
  have hidx := Milestones.index_of_find? hf
  obtain ⟨h₁, h₂, rfl | ⟨hlt, row', hf', rfl⟩⟩ := hm
  · exact ⟨h₁, h₂, .inr ⟨by omega, row, by rw [hidx]; exact hf, rfl⟩⟩
  · exact ⟨h₁, h₂, .inr ⟨by omega, row', hf', rfl⟩⟩

/-- **What the loop over the milestones lists.** -/
theorem collectNewLoop_ok (hq : t.faults = fun _ => []) {conf : Conf Hash} {i T n : ℕ}
    {prev : Milestone Hash} {P : Hash → Prop}
    (hP : ∀ m, Processed t i prev m → ListedBy t conf.genesisHash m T ts P ∧ P m.hash)
    (hS : ∀ x ∈ S.keys, P x)
    (hr : collectNewLoop conf i T ts n prev S t = .ok S' t') :
    t' = t ∧ (∀ x ∈ S.keys, x ∈ S'.keys) ∧
      (∀ m, Processed t i prev m → m.hash ∈ S'.keys ∧
        ∀ x, Candidate t conf.genesisHash m x → Approved t ts S x → x ∈ S'.keys) ∧
      ∀ x ∈ S'.keys, P x := by
  induction n generalizing prev S with
  | zero => cases hr
  | succ n ih =>
    rw [collectNewLoop] at hr
    split at hr
    · rename_i hrange
      have hself : Processed t i prev prev := ⟨hrange.1, hrange.2, .inl rfl⟩
      obtain ⟨found, t₁, h₁, h₂⟩ := bind_eq_ok.mp hr
      obtain ⟨rfl, hmono, hfound, hknown⟩ :=
        findEntryPointsAndUpdate_ok hq (hP prev hself).1 hS h₁
      obtain ⟨o, t₂, h₃, h₄⟩ := bind_eq_ok.mp h₂
      have hload : milestoneLoadByIndex (prev.index - 1) t₁ =
          .ok ((t₁.milestones.find? (prev.index - 1)).map (·.milestone)) t₁ := by
        rw [milestoneLoadByIndex, bind_apply_ok (attempt_of_nil hq), gets_apply]
      rw [hload] at h₃
      cases h₃
      have hmono' : ∀ x ∈ S.keys, x ∈ (found.insert (prev.hash, prev.index)).keys :=
        fun x hx => Table.mem_keys_insert.mpr (.inl (hmono x hx))
      have hknown' : ∀ x ∈ (found.insert (prev.hash, prev.index)).keys, P x := by
        intro x hx
        rcases Table.mem_keys_insert.mp hx with hx | rfl
        · exact hknown x hx
        · exact (hP prev hself).2
      -- what this turn has listed stays, however the loop goes on
      have hprev : ∀ S'' : EntryPoints Hash,
          (∀ x ∈ (found.insert (prev.hash, prev.index)).keys, x ∈ S''.keys) →
          prev.hash ∈ S''.keys ∧ ∀ x, Candidate t₁ conf.genesisHash prev x →
            Approved t₁ ts S x → x ∈ S''.keys := by
        intro S'' hsub
        refine ⟨hsub _ (Table.mem_keys_insert.mpr (.inr rfl)), fun x hx happ => hsub x ?_⟩
        exact Table.mem_keys_insert.mpr (.inl (hfound x hx happ))
      cases hf : t₁.milestones.find? (prev.index - 1) with
      | none =>
        -- the buffer keeps its milestone, and the loop comes to the same one again
        rw [hf] at h₄
        dsimp only [Option.map] at h₄
        split at h₄
        · cases h₄
        · obtain ⟨ht, hm', hall, hk'⟩ := ih hP hknown' h₄
          refine ⟨ht, fun x hx => hm' x (hmono' x hx), fun m hm => ?_, hk'⟩
          exact ⟨(hall m hm).1, fun x hx happ => (hall m hm).2 x hx (happ.mono hmono')⟩
      | some row =>
        rw [hf] at h₄
        obtain ⟨ht, hm', hall, hk'⟩ := ih
          (fun m hm => hP m (processed_of_next (by omega) hf hm)) hknown' h₄
        refine ⟨ht, fun x hx => hm' x (hmono' x hx), fun m hm => ?_, hk'⟩
        rcases processed_next hf hm with rfl | hm
        · exact hprev S' hm'
        · exact ⟨(hall m hm).1, fun x hx happ => (hall m hm).2 x hx (happ.mono hmono')⟩
    · rename_i hrange
      cases hr
      refine ⟨rfl, fun x hx => hx, fun m hm => ?_, hS⟩
      obtain ⟨h₁, h₂, rfl | ⟨hlt, -⟩⟩ := hm
      · exact absurd ⟨h₁, h₂⟩ hrange
      · exact absurd ⟨by omega, by omega⟩ hrange

/-! ## Old entry points -/

/-- An entry point of the initial snapshot that is tested again. -/
def Retested (conf : Conf Hash) (initial : Snapshot Hash) (T : ℕ) (x : Hash) : Prop :=
  ∃ index, (x, index) ∈ initial.solidEntryPoints.rows ∧ x ≠ conf.genesisHash ∧
    Word.sub T index < solidEntryPointMaxDepth

/-- **What the loop over the old entry points lists.** -/
theorem updateOldLoop_ok (hq : t.faults = fun _ => []) {conf : Conf Hash} {T : ℕ}
    {es : List (Hash × ℕ)} {P : Hash → Prop}
    (hP : ∀ e ∈ es, e.1 ≠ conf.genesisHash → Word.sub T e.2 < solidEntryPointMaxDepth →
      ∀ S : EntryPoints Hash, (∀ y ∈ S.keys, P y) → Approved t ts S e.1 → P e.1)
    (hS : ∀ x ∈ S.keys, P x) (hr : updateOldLoop conf T ts es S t = .ok S' t') :
    t' = t ∧ (∀ x ∈ S.keys, x ∈ S'.keys) ∧
      (∀ e ∈ es, e.1 ≠ conf.genesisHash → Word.sub T e.2 < solidEntryPointMaxDepth →
        Approved t ts S e.1 → e.1 ∈ S'.keys) ∧ ∀ x ∈ S'.keys, P x := by
  induction es generalizing S with
  | nil =>
    cases hr
    exact ⟨rfl, fun x hx => hx, by simp, hS⟩
  | cons e es ih =>
    have hP' := fun e' he' => hP e' (List.mem_cons_of_mem _ he')
    rw [updateOldLoop] at hr
    split at hr
    · rename_i hcond
      obtain ⟨S₁, hadd, hmem⟩ := addEntryPointIfNotOrphan_ok hq ts e.1 e.2 S
      rw [bind_apply_ok hadd] at hr
      have hS₁ : ∀ x ∈ S₁.keys, P x := by
        intro x hx
        rcases (hmem x).mp hx with hx | ⟨rfl, happ⟩
        · exact hS x hx
        · exact hP e List.mem_cons_self hcond.1 hcond.2 S hS happ
      have hmono₁ : ∀ x ∈ S.keys, x ∈ S₁.keys := fun x hx => (hmem x).mpr (.inl hx)
      obtain ⟨ht, hmono, hfound, hknown⟩ := ih hP' hS₁ hr
      refine ⟨ht, fun x hx => hmono x (hmono₁ x hx), fun e' he' h₁ h₂ happ => ?_, hknown⟩
      rcases List.mem_cons.mp he' with rfl | he'
      · exact hmono _ ((hmem _).mpr (.inr ⟨rfl, happ⟩))
      · exact hfound e' he' h₁ h₂ (happ.mono hmono₁)
    · rename_i hcond
      obtain ⟨ht, hmono, hfound, hknown⟩ := ih hP' hS hr
      refine ⟨ht, hmono, fun e' he' h₁ h₂ happ => ?_, hknown⟩
      rcases List.mem_cons.mp he' with rfl | he'
      · exact absurd ⟨h₁, h₂⟩ hcond
      · exact hfound e' he' h₁ h₂ happ

/-! ## The border -/

/-- The timestamp of the target's transaction. -/
def targetTimestamp (t : Tangle Hash) (target : Milestone Hash) : UInt64 :=
  ((t.transactions.find? target.hash).map (·.timestamp)).getD 0

theorem loadTargetTransaction_ok (hq : t.faults = fun _ => []) {target : Milestone Hash}
    (hr : loadTargetTransaction target.hash t = .ok tx t') :
    t' = t ∧ tx.timestamp = t.targetTimestamp target := by
  have hload : outcome (transactionLoad target.hash) t =
      .ok (.ok (t.transactions.find? target.hash)) t := by
    refine outcome_eq_ok.mpr (.inl ⟨_, rfl, ?_⟩)
    rw [transactionLoad, bind_apply_ok (attempt_of_nil hq), gets_apply]
  rw [loadTargetTransaction, bind_apply_ok hload] at hr
  unfold targetTimestamp
  cases hf : t.transactions.find? target.hash with
  | none => rw [hf] at hr; cases hr
  | some tx' =>
    rw [hf] at hr
    cases hr
    exact ⟨rfl, rfl⟩

/-- Confirmed after the initial snapshot and up to the target, and approved by a
stored transaction that was confirmed after the target. -/
def Border (t : Tangle Hash) (initial : Snapshot Hash) (target : Milestone Hash) (x : Hash) :
    Prop :=
  ∃ tx, t.transactions.find? x = some tx ∧ initial.index < tx.snapshotIndex ∧
    tx.snapshotIndex ≤ target.index ∧ ∃ ty ∈ t.transactions.rows,
      target.index < ty.snapshotIndex ∧ (ty.trunk = x ∨ ty.branch = x)

/-- Some approver leads, through unconfirmed transactions, to an unconfirmed one
younger than the target. -/
def YoungApprover (t : Tangle Hash) (ts : UInt64) (h : Hash) : Prop :=
  ∃ z ∈ t.approvers h, ∃ w tx, Reach t.unconfirmedApprovers [] z w ∧
    t.transactions.find? w = some tx ∧ tx.snapshotIndex = 0 ∧ Young ts tx

theorem YoungApprover.approved (h : YoungApprover t ts x) : Approved t ts S x := by
  obtain ⟨z, hz, w, tx, hw, hf, hidx, hy⟩ := h
  exact ⟨z, hz, w, hw, tx, hf, hidx, .inr hy⟩

/-- Entry points that are confirmed end no orphan test. -/
theorem Approved.young (hS : ∀ y ∈ S.keys, ∀ tx, t.transactions.find? y = some tx →
    tx.snapshotIndex ≠ 0) (h : Approved t ts S x) : YoungApprover t ts x := by
  obtain ⟨z, hz, w, hw, tx, hf, hidx, hmem | hy⟩ := h
  · exact absurd hidx (hS w hmem tx hf)
  · exact ⟨z, hz, w, tx, hw, hf, hidx, hy⟩

/-- The hashes that are sure to be listed. -/
inductive Kept (conf : Conf Hash) (initial : Snapshot Hash) (target : Milestone Hash)
    (t : Tangle Hash) : Hash → Prop
  | genesis : Kept conf initial target t conf.genesisHash
  | milestone {m : Milestone Hash} (hm : Processed t initial.index target m) :
      Kept conf initial target t m.hash
  | candidate {m : Milestone Hash} {x : Hash} (hm : Processed t initial.index target m)
      (hx : Candidate t conf.genesisHash m x) (hy : YoungApprover t (t.targetTimestamp target) x) :
      Kept conf initial target t x
  | old {x : Hash} (hx : Retested conf initial target.index x)
      (hy : YoungApprover t (t.targetTimestamp target) x) : Kept conf initial target t x

/-- The genesis, the entry points of the initial snapshot and the milestones of the
range are not stored as unconfirmed transactions. -/
def EntryPointsConfirmed (conf : Conf Hash) (initial : Snapshot Hash) (target : Milestone Hash)
    (t : Tangle Hash) : Prop :=
  ∀ x tx, (x = conf.genesisHash ∨ x ∈ initial.solidEntryPoints.keys ∨
    ∃ m, Processed t initial.index target m ∧ m.hash = x) →
    t.transactions.find? x = some tx → tx.snapshotIndex ≠ 0

/-- The border is listed. -/
def Complete (t : Tangle Hash) (initial : Snapshot Hash) (target : Milestone Hash)
    (S : EntryPoints Hash) : Prop :=
  ∀ x, Border t initial target x → x ∈ S.keys

/-- One pass over the two loops: everything kept is listed, and any `P` that covers
what the loops list covers the result. -/
theorem updateSolidEntryPoints_pass (hq : t.faults = fun _ => []) {conf : Conf Hash}
    {initial : Snapshot Hash} {target : Milestone Hash}
    (hr : updateSolidEntryPoints conf initial target t = .ok S t') {P : Hash → Prop}
    (hgen : P conf.genesisHash)
    (hold : ∀ x, Retested conf initial target.index x → ∀ S : EntryPoints Hash,
      (∀ y ∈ S.keys, P y) → Approved t (t.targetTimestamp target) S x → P x)
    (hnew : ∀ m, Processed t initial.index target m →
      ListedBy t conf.genesisHash m target.index (t.targetTimestamp target) P ∧ P m.hash) :
    (∀ x, Kept conf initial target t x → x ∈ S.keys) ∧ ∀ x ∈ S.keys, P x := by
  obtain ⟨S₁, t₁, h₁, h₂⟩ := bind_eq_ok.mp hr
  obtain ⟨tx₁, u₁, h₃, h₄⟩ := bind_eq_ok.mp h₁
  obtain ⟨rfl, hts₁⟩ := loadTargetTransaction_ok hq h₃
  rw [hts₁] at h₄
  have hS₀ : ∀ x ∈ (Table.empty.insert (conf.genesisHash, target.index) :
      EntryPoints Hash).keys, P x := by
    intro x hx
    rcases Table.mem_keys_insert.mp hx with hx | rfl
    · cases hx
    · exact hgen
  obtain ⟨rfl, hmono₁, hfound₁, hknown₁⟩ := updateOldLoop_ok hq
    (fun e he h h' => hold e.1 ⟨e.2, he, h, h'⟩) hS₀ h₄
  obtain ⟨tx₂, u₂, h₅, h₆⟩ := bind_eq_ok.mp h₂
  obtain ⟨rfl, hts₂⟩ := loadTargetTransaction_ok hq h₅
  rw [hts₂] at h₆
  obtain ⟨-, hmono₂, hall, hknown₂⟩ := collectNewLoop_ok hq hnew hknown₁ h₆
  refine ⟨fun x hx => ?_, hknown₂⟩
  cases hx with
  | genesis => exact hmono₂ _ (hmono₁ _ (Table.mem_keys_insert.mpr (.inr rfl)))
  | milestone hm => exact (hall _ hm).1
  | candidate hm hx hy => exact (hall _ hm).2 x hx hy.approved
  | old hx hy =>
    obtain ⟨index, hmem, hne, hdepth⟩ := hx
    exact hmono₂ x (hfound₁ (x, index) hmem hne hdepth hy.approved)

/-- What the code keeps, or confirms above the target. -/
def KeptOrLater (conf : Conf Hash) (initial : Snapshot Hash) (target : Milestone Hash)
    (t : Tangle Hash) (x : Hash) : Prop :=
  Kept conf initial target t x ∨
    ∃ tx, t.transactions.find? x = some tx ∧ target.index < tx.snapshotIndex

theorem KeptOrLater.confirmed {conf : Conf Hash} {initial : Snapshot Hash}
    {target : Milestone Hash} {x : Hash} (hconf : EntryPointsConfirmed conf initial target t)
    (hx : KeptOrLater conf initial target t x) {tx : Transaction Hash}
    (hf : t.transactions.find? x = some tx) : tx.snapshotIndex ≠ 0 := by
  rcases hx with hx | ⟨tx', hf', hlt⟩
  · cases hx with
    | genesis => exact hconf _ tx (.inl rfl) hf
    | milestone hm => exact hconf _ tx (.inr (.inr ⟨_, hm, rfl⟩)) hf
    | @candidate m _ hm hx hy =>
      obtain ⟨-, tx', hf', hk⟩ := hx
      rw [hf] at hf'
      cases hf'
      have := hm.2.1
      omega
    | old hx hy =>
      obtain ⟨index, hmem, -⟩ := hx
      exact hconf x tx (.inr (.inl (List.mem_map.mpr ⟨(x, index), hmem, rfl⟩))) hf
  · rw [hf] at hf'
    cases hf'
    omega

theorem updateSolidEntryPoints_ok (hq : t.faults = fun _ => []) {conf : Conf Hash}
    {initial : Snapshot Hash} {target : Milestone Hash}
    (hr : updateSolidEntryPoints conf initial target t = .ok S t') :
    (∀ x, Kept conf initial target t x → x ∈ S.keys) ∧
      (EntryPointsConfirmed conf initial target t →
        ∀ x ∈ S.keys, KeptOrLater conf initial target t x) := by
  refine ⟨(updateSolidEntryPoints_pass hq hr (P := fun _ => True) trivial
    (fun _ _ _ _ _ => trivial) fun _ _ =>
      ⟨⟨fun _ _ _ _ => trivial, fun _ _ _ _ _ => trivial⟩, trivial⟩).1, fun hconf => ?_⟩
  -- what is listed is confirmed, so it does not help another candidate
  refine (updateSolidEntryPoints_pass hq hr (P := KeptOrLater conf initial target t)
    (.inl .genesis) ?_ ?_).2
  · intro x hx S hS happ
    exact .inl (.old hx (happ.young fun y hy tx hf => (hS y hy).confirmed hconf hf))
  · intro m hm
    refine ⟨⟨fun x tx hf hlt => .inr ⟨tx, hf, hlt⟩, ?_⟩, .inl (.milestone hm)⟩
    intro x S hx hS happ
    exact .inl (.candidate hm hx (happ.young fun y hy tx hf => (hS y hy).confirmed hconf hf))

/-- **Which borders survive.** When no storage call fails, the border is listed if
each of its transactions is the genesis, a milestone of the range, or one that is
tested and has an approver leading through unconfirmed transactions to a young
one. If in addition no entry point is stored as unconfirmed, the border is listed
only then. -/
theorem solidEntryPoints_complete_iff (conf : Conf Hash) (initial : Snapshot Hash)
    (target : Milestone Hash) (t t' : Tangle Hash) (S : EntryPoints Hash)
    (hq : t.faults = fun _ => []) (hr : updateSolidEntryPoints conf initial target t = .ok S t') :
    ((∀ x, Border t initial target x → Kept conf initial target t x) →
      Complete t initial target S) ∧
    (EntryPointsConfirmed conf initial target t → Complete t initial target S →
      ∀ x, Border t initial target x → Kept conf initial target t x) := by
  obtain ⟨hkept, honly⟩ := updateSolidEntryPoints_ok hq hr
  refine ⟨fun h x hx => hkept x (h x hx), fun hconf hcomp x hx => ?_⟩
  rcases honly hconf x (hcomp x hx) with h | ⟨tx, hf, hlt⟩
  · exact h
  · obtain ⟨tx', hf', -, hle, -⟩ := hx
    rw [hf] at hf'
    cases hf'
    omega

/-! ## A border that is lost -/

/-- A transaction of a bundle of one, confirmed by a milestone. -/
def confirmedTx (hash trunk branch : Fin 256) (index : ℕ) : Transaction (Fin 256) :=
  { plainTx hash trunk branch 50 0 0 0 with snapshotIndex := index }

/-- Milestones `1`, `2` and `3`. Milestone `2` confirms `10`, which milestone `3`
approves too; an unconfirmed transaction that approves `10` is there or not. -/
def borderTangle (tips : List (Transaction (Fin 256)))
    (h : (([confirmedTx 1 0 0 1, confirmedTx 10 1 1 2, confirmedTx 2 10 1 2,
      confirmedTx 3 10 2 3] ++ tips).map (·.hash)).Nodup) : Tangle (Fin 256) where
  transactions := ⟨_, h⟩
  milestones := ⟨⟨[⟨⟨1, 1⟩, none⟩, ⟨⟨2, 2⟩, none⟩, ⟨⟨3, 3⟩, none⟩], by decide⟩, by decide⟩
  faults := fun _ => []

/-- The initial snapshot is that of milestone 1. -/
def borderSnapshot : Snapshot (Fin 256) := ⟨Table.empty, 1, 1, 0, Table.empty⟩

/-- The genesis is `0`. -/
def borderConf : Conf (Fin 256) := ⟨0, 0, false⟩

/-- **A border transaction is dropped.** Transaction `10` is confirmed by the target
and is the trunk of milestone `3`, and both its approvers are confirmed. -/
theorem solidEntryPoints_drop_border :
    ∃ S t', updateSolidEntryPoints borderConf borderSnapshot ⟨2, 2⟩ (borderTangle [] (by decide)) =
        .ok S t' ∧
      Border (borderTangle [] (by decide)) borderSnapshot ⟨2, 2⟩ 10 ∧ (10 : Fin 256) ∉ S.keys := by
  have hrun : returns (updateSolidEntryPoints borderConf borderSnapshot ⟨2, 2⟩)
      (borderTangle [] (by decide)) (fun S _ => decide ((10 : Fin 256) ∉ S.keys)) = true := by
    decide +kernel
  obtain ⟨S, t', hr, hp⟩ := of_returns hrun
  refine ⟨S, t', hr, ?_, of_decide_eq_true hp⟩
  exact ⟨confirmedTx 10 1 1 2, rfl, by decide, by decide, confirmedTx 3 10 2 3,
    by simp [borderTangle], by decide, .inl rfl⟩

/-- An unconfirmed approver of `10`, younger than the target. -/
def youngTx : Transaction (Fin 256) := { plainTx 20 10 2 50 0 0 0 with timestamp := 5 }

/-- With a young approver the border is listed. -/
theorem solidEntryPoints_keep_border :
    ∃ S t', updateSolidEntryPoints borderConf borderSnapshot ⟨2, 2⟩
        (borderTangle [youngTx] (by decide)) = .ok S t' ∧
      Border (borderTangle [youngTx] (by decide)) borderSnapshot ⟨2, 2⟩ 10 ∧
      Complete (borderTangle [youngTx] (by decide)) borderSnapshot ⟨2, 2⟩ S := by
  have hrun : returns (updateSolidEntryPoints borderConf borderSnapshot ⟨2, 2⟩)
      (borderTangle [youngTx] (by decide)) (fun _ _ => true) = true := by decide +kernel
  obtain ⟨S, t', hr, -⟩ := of_returns hrun
  have hborder : Border (borderTangle [youngTx] (by decide)) borderSnapshot ⟨2, 2⟩ 10 :=
    ⟨confirmedTx 10 1 1 2, rfl, by decide, by decide, confirmedTx 3 10 2 3, by simp [borderTangle],
      by decide, .inl rfl⟩
  have hrange : ∀ x : Fin 256, ((borderTangle [youngTx] (by decide)).transactions.find? x).all
      (fun tx => decide (1 < tx.snapshotIndex → tx.snapshotIndex ≤ 2 → x = 2 ∨ x = 10)) = true := by
    decide +kernel
  have hprocessed : Processed (borderTangle [youngTx] (by decide)) borderSnapshot.index ⟨2, 2⟩
      ⟨2, 2⟩ :=
    ⟨by decide, by decide, .inl rfl⟩
  refine ⟨S, t', hr, hborder, ?_⟩
  refine (solidEntryPoints_complete_iff borderConf borderSnapshot ⟨2, 2⟩ _ t' S rfl hr).1 ?_
  rintro x ⟨tx, hf, h₁, h₂, -⟩
  have hx := hrange x
  rw [hf] at hx
  rcases of_decide_eq_true hx h₁ h₂ with rfl | rfl
  · exact .milestone hprocessed
  · refine .candidate hprocessed ⟨?_, confirmedTx 10 1 1 2, rfl, by decide⟩ ?_
    · exact .step (.root (by decide)) (by decide) (by decide)
    · exact ⟨20, by decide, 20, youngTx, .root (by decide), rfl, rfl, .inr (by decide)⟩

end Tangle

end Entangled
