import Entangled.TipSelection.Rating
import Mathlib.Data.Set.Card
/-!
# Whether the cumulative weights are exact

A weight is exact when it is the number of transactions in the future cone. The search over the map
counts right as long as the bitset is a set of numbers, which it is up to 64 transactions. The one
with number 64 shifts by 64, and what that does is up to the machine.
-/

namespace Entangled

open Prog

variable {Hash : Type} [DecidableEq Hash] [HashBytes Hash]

namespace Rating

/-- The number of transactions in a future cone. -/
noncomputable def weight (t : Tangle Hash) (x : Hash) : ℕ := Set.ncard { y | FutureCone t x y }

/-- **Exact weights**: just the future cone of the entry point is rated, each transaction with the
size of its own. -/
def Exact (t : Tangle Hash) (ep : Hash) (cw : CwCalcResult Hash) : Prop :=
  ∀ x r, cw.rating x = some r ↔ FutureCone t ep x ∧ r = (weight t x : ℤ)

/-- The approvers the map holds of a hash. -/
def readApprovers (m : ApproverMap Hash) (h : Hash) : List Hash :=
  ((m.find? h).map (·.approvers)).getD []

/-- What a search over the map has done so far, with `order` the hashes it has counted. -/
structure LightInv (m : ApproverMap Hash) (root : Hash) (l : LightSearch Hash) (order : List Hash) :
    Prop where
  explored : Search.Explored (readApprovers m) [] root l.stack order
  known : ∀ y, y ∈ l.stack ∨ y ∈ order → y ∈ m.keys
  size : l.subtangleSize = order.length
  marks : l.visited.Marks fun i => ∃ e ∈ m.rows, e.idx = i ∧ e.hash ∈ order

/-- What is left to do: a transaction not counted yet may push all there is. -/
def lightMeasure (m : ApproverMap Hash) (l : LightSearch Hash) : ℕ :=
  l.stack.length +
    (m.rows.map fun e => e.approvers.length).sum * (m.rows.length - l.subtangleSize)

variable {t t' : Tangle Hash} {ep root h x y : Hash} {m : ApproverMap Hash} {l : LightSearch Hash}
  {order : List Hash} {wide : ℕ → Option (BitVec 64)} {e : IndexedHashSet Hash} {τ : Type} {s : τ}

/-! ## The map -/

theorem ReadsCone.idx_lt (hm : ReadsCone t ep m) (he : e ∈ m.rows) : e.idx < m.rows.length := by
  have hmem : e.idx ∈ m.rows.map (·.idx) := List.mem_map_of_mem he
  rw [hm.idx] at hmem
  exact List.mem_range.mp hmem

theorem ReadsCone.idx_inj (hm : ReadsCone t ep m) {e' : IndexedHashSet Hash} (he : e ∈ m.rows)
    (he' : e' ∈ m.rows) (hidx : e.idx = e'.idx) : e = e' := by
  have hnodup : (m.rows.map (·.idx)).Nodup := by
    rw [hm.idx]
    exact List.nodup_range
  exact List.inj_on_of_nodup_map hnodup he he' hidx

/-- The entry point has the number 0. -/
theorem ReadsCone.idx_eq_zero (hm : ReadsCone t ep m) (he : e ∈ m.rows) :
    e.idx = 0 ↔ e.hash = ep := by
  obtain ⟨e₀, rest, hrows⟩ : ∃ e₀ rest, m.rows = e₀ :: rest :=
    List.exists_cons_of_ne_nil (List.ne_nil_of_mem he)
  have hidx := hm.idx
  rw [hrows, List.map_cons, List.length_cons, List.range_succ_eq_map] at hidx
  have hroot := hm.root
  rw [Table.keys, hrows, List.map_cons, List.head?_cons] at hroot
  have h₀ : e₀ ∈ m.rows := hrows ▸ List.mem_cons_self
  constructor
  · intro hz
    rw [hm.idx_inj he h₀ (hz.trans (List.cons.inj hidx).1.symm)]
    exact Option.some.inj hroot
  · intro hep
    have hkey : m.find? e.hash = m.find? e₀.hash := by rw [hep, Option.some.inj hroot]
    rw [Table.find?_key he, Table.find?_key h₀] at hkey
    rw [Option.some.inj hkey]
    exact (List.cons.inj hidx).1

theorem ReadsCone.readApprovers_eq (hm : ReadsCone t ep m) (hx : x ∈ m.keys) (y : Hash) :
    y ∈ readApprovers m x ↔ y ∈ t.approvers x := by
  obtain ⟨e, hf⟩ := Table.mem_keys_iff.mp hx
  rw [readApprovers, hf]
  have happ := hm.approvers e (Table.mem_of_find? hf) y
  rwa [Table.key_of_find? hf] at happ

/-- Over the map the future cones are those of the store. -/
theorem ReadsCone.reach_iff (hm : ReadsCone t ep m) (hx : x ∈ m.keys) :
    Search.Reach (readApprovers m) [] x y ↔ FutureCone t x y := by
  have hep := (hm.keys x).mp hx
  constructor
  · intro hr
    have hboth : FutureCone t x y ∧ y ∈ m.keys := by
      induction hr with
      | root _ => exact ⟨.refl, hx⟩
      | step _ hy _ ih =>
        have happ := (hm.readApprovers_eq ih.2 _).mp hy
        have hcone := ih.1.tail happ
        exact ⟨hcone, (hm.keys _).mpr (hep.trans hcone)⟩
    exact hboth.1
  · intro hr
    induction hr with
    | refl => exact .root List.not_mem_nil
    | tail hxy hy ih =>
      exact .step ih ((hm.readApprovers_eq ((hm.keys _).mpr (hep.trans hxy)) _).mpr hy)
        List.not_mem_nil

theorem weight_of_order (hnodup : order.Nodup) (hmem : ∀ y, y ∈ order ↔ FutureCone t x y) :
    weight t x = order.length := by
  have hset : { y | FutureCone t x y } = (order.toFinset : Set Hash) := by
    ext y
    rw [Set.mem_ofPred_eq, List.coe_toFinset, Set.mem_ofPred_eq, hmem]
  rw [weight, hset, Set.ncard_coe_finset, List.toFinset_card_of_nodup hnodup]

theorem ReadsCone.weight_eq (hm : ReadsCone t ep m) : weight t ep = m.rows.length := by
  rw [weight_of_order m.nodup hm.keys, List.length_map]

/-! ## A search over the map -/

omit [HashBytes Hash] in
theorem lightInv_start (hx : x ∈ m.keys) (n : ℕ) :
    LightInv m x ⟨[x], Bitset.reset (Bitset.requiredSize n), 0⟩ [] where
  explored := .start
  known y hy := by
    rcases hy with hy | hy
    · rwa [List.mem_singleton.mp hy]
    · cases hy
  size := rfl
  marks := by
    obtain ⟨word, rest, hraw, hbits⟩ := Bitset.marks_reset n
    refine ⟨word, rest, hraw, fun i hi => ?_⟩
    rw [hbits i hi]
    exact iff_of_false id fun ⟨e, _, _, he⟩ => List.not_mem_nil he

omit [HashBytes Hash] in
theorem LightInv.size_lt (hI : LightInv m root l order) (hx : x ∈ m.keys) (hfresh : x ∉ order) :
    l.subtangleSize < m.rows.length := by
  -- the counted ones and `x` are different keys of the map
  have hsub : (x :: order).Subperm m.keys := by
    refine (List.nodup_cons.mpr ⟨hfresh, hI.explored.nodup⟩).subperm fun y hy => ?_
    rcases List.mem_cons.mp hy with rfl | hy
    · exact hx
    · exact hI.known y (.inr hy)
  have hlen := hsub.length_le
  rw [List.length_cons, Table.keys, List.length_map] at hlen
  rw [hI.size]
  omega

omit [HashBytes Hash] in
/-- A hash counted before is dropped. -/
theorem LightInv.skip (hI : LightInv m root l order) {rest : List Hash}
    (hstack : l.stack = h :: rest) (hmem : h ∈ order) :
    LightInv m root { l with stack := rest } order where
  explored := by
    have hexp := hI.explored
    rw [hstack] at hexp
    exact hexp.skip (by simpa using hmem)
  known y hy := by
    have hy' : y ∈ l.stack ∨ y ∈ order :=
      hy.imp_left fun hrest => hstack ▸ List.mem_cons_of_mem h hrest
    exact hI.known y hy'
  size := hI.size
  marks := hI.marks

/-- A hash not counted before is counted, and its approvers are pushed. -/
theorem LightInv.push (hm : ReadsCone t ep m) (hI : LightInv m root l order) {rest : List Hash}
    (hstack : l.stack = h :: rest) (hf : m.find? h = some e) (hfresh : h ∉ order) {visited : Bitset}
    (hmarks : visited.Marks fun i => (∃ e ∈ m.rows, e.idx = i ∧ e.hash ∈ order) ∨ i = e.idx) :
    LightInv m root ⟨e.approvers.reverse ++ rest, visited, l.subtangleSize + 1⟩ (order ++ [h]) := by
  have he := Table.mem_of_find? hf
  have hh := Table.key_of_find? hf
  have hkey : h ∈ m.keys := Table.mem_keys_iff.mpr ⟨e, hf⟩
  have happrovers : readApprovers m h = e.approvers := by
    rw [readApprovers, hf]
    rfl
  refine ⟨?_, fun y hy => ?_, ?_, ?_⟩
  · have hexp := hI.explored
    rw [hstack] at hexp
    refine hexp.push (by simpa using hfresh) (fun y hy => ?_) fun y hy => ?_
    · rw [happrovers] at hy
      exact List.mem_reverse.mpr hy
    · refine ⟨h, List.mem_append_right _ List.mem_cons_self, ?_⟩
      rw [happrovers]
      exact List.mem_reverse.mp hy
  · rcases hy with hy | hy
    · rcases List.mem_append.mp hy with hy | hy
      · -- what is pushed approves something of the cone, so the map has it too
        have happ := (hm.approvers e he y).mp (List.mem_reverse.mp hy)
        rw [hh] at happ
        have hcone := (hm.keys h).mp hkey
        exact (hm.keys y).mpr (hcone.tail happ)
      · exact hI.known y (.inl (hstack ▸ List.mem_cons_of_mem h hy))
    · rcases List.mem_append.mp hy with hy | hy
      · exact hI.known y (.inr hy)
      · rwa [List.mem_singleton.mp hy]
  · rw [hI.size, List.length_append, List.length_singleton]
  · obtain ⟨word, ws, hraw, hbits⟩ := hmarks
    refine ⟨word, ws, hraw, fun i hi => ?_⟩
    rw [hbits i hi]
    constructor
    · rintro (⟨e', he', hidx, hmem⟩ | rfl)
      · exact ⟨e', he', hidx, List.mem_append_left _ hmem⟩
      · exact ⟨e, he, rfl, hh ▸ List.mem_append_right _ List.mem_cons_self⟩
    · rintro ⟨e', he', hidx, hmem⟩
      rcases List.mem_append.mp hmem with hmem | hmem
      · exact .inl ⟨e', he', hidx, hmem⟩
      · right
        have hkeys : m.find? e'.hash = m.find? h := by rw [List.mem_singleton.mp hmem]
        rw [Table.find?_key he', hf] at hkeys
        rw [← hidx, Option.some.inj hkeys]

omit [HashBytes Hash] in
theorem lightMeasure_skip {rest : List Hash} (hstack : l.stack = h :: rest) :
    lightMeasure m { l with stack := rest } < lightMeasure m l := by
  rw [lightMeasure, lightMeasure, hstack, List.length_cons]
  dsimp only
  omega

omit [HashBytes Hash] in
/-- One more is counted, which pays for what it pushes. -/
theorem lightMeasure_push {rest : List Hash} (hstack : l.stack = h :: rest) (he : e ∈ m.rows)
    (hsize : l.subtangleSize < m.rows.length) (visited : Bitset) :
    lightMeasure m ⟨e.approvers.reverse ++ rest, visited, l.subtangleSize + 1⟩ <
      lightMeasure m l := by
  have hpush : e.approvers.length ≤ (m.rows.map fun e => e.approvers.length).sum :=
    List.le_sum_of_mem (List.mem_map_of_mem he)
  obtain ⟨d, hd⟩ : ∃ d, m.rows.length - l.subtangleSize = d + 1 :=
    ⟨m.rows.length - l.subtangleSize - 1, by omega⟩
  rw [lightMeasure, lightMeasure, hstack, List.length_append, List.length_reverse,
    List.length_cons, hd, show m.rows.length - (l.subtangleSize + 1) = d by omega, Nat.mul_succ]
  omega

/-- The bit of a number below 64 is set when the transaction with that number was counted. -/
theorem LightInv.isSet_iff (hm : ReadsCone t ep m) (hI : LightInv m root l order)
    (he : e ∈ m.rows) (hlt : e.idx < 64) :
    ∃ r, l.visited.isSet wide e.idx = some r ∧ (r = true ↔ e.hash ∈ order) := by
  obtain ⟨r, hset, hr⟩ : ∃ r, l.visited.isSet wide e.idx = some r ∧ (r = true ↔ _) :=
    Bitset.isSet_of_marks hI.marks hlt
  refine ⟨r, hset, hr.trans ⟨?_, fun hmem => ⟨e, he, rfl, hmem⟩⟩⟩
  rintro ⟨e', he', hidx, hmem⟩
  rwa [hm.idx_inj he' he hidx] at hmem

/-- **One turn**: what was counted is dropped, what was not is counted and its approvers pushed. -/
theorem lightTurn_again (hm : ReadsCone t ep m) (hsmall : m.rows.length ≤ 64)
    (hI : LightInv m root l order) {rest : List Hash} (hstack : l.stack = h :: rest) :
    ∃ l' order', lightTurn wide m l s = .ok (.again l') s ∧ LightInv m root l' order' ∧
      lightMeasure m l' < lightMeasure m l := by
  have hkey : h ∈ m.keys := hI.known h (.inl (hstack ▸ List.mem_cons_self))
  obtain ⟨e, hf⟩ := Table.mem_keys_iff.mp hkey
  have he := Table.mem_of_find? hf
  have hlt : e.idx < 64 := Nat.lt_of_lt_of_le (hm.idx_lt he) hsmall
  obtain ⟨r, hset, hr⟩ : ∃ r, l.visited.isSet wide e.idx = some r ∧ _ := hI.isSet_iff hm he hlt
  rw [Table.key_of_find? hf] at hr
  unfold lightTurn
  rw [hstack]
  dsimp only
  rw [hf]
  dsimp only
  rw [hset]
  cases hrb : r with
  | true => exact ⟨_, order, rfl, hI.skip hstack (hr.mp hrb), lightMeasure_skip hstack⟩
  | false =>
    have hfresh : h ∉ order := fun hmem => by
      rw [hr.mpr hmem] at hrb
      cases hrb
    obtain ⟨visited, hvisited, hmarks⟩ : ∃ b, l.visited.setTrue wide e.idx = some b ∧ b.Marks _ :=
      Bitset.setTrue_of_marks hI.marks hlt
    dsimp only
    rw [hvisited]
    have hsize := hI.size_lt hkey hfresh
    exact ⟨_, order ++ [h], rfl, hI.push hm hstack hf hfresh hmarks,
      lightMeasure_push hstack he hsize visited⟩

/-- **A search over a map of at most 64** counts the future cone. -/
theorem dfsLight_ok (hm : ReadsCone t ep m) (hsmall : m.rows.length ≤ 64) (hx : x ∈ m.keys)
    {rounds : ℕ} (n : ℕ) (hrounds : lightMeasure m ⟨[x], ⟨[]⟩, 0⟩ < rounds) (s : τ) :
    dfsLight wide m rounds x (Bitset.reset (Bitset.requiredSize n)) s = .ok (weight t x) s := by
  have hstep : ∀ p : LightSearch Hash × τ, (p.2 = s ∧ ∃ order, LightInv m x p.1 order) →
      (∃ a s', lightTurn wide m p.1 p.2 = .ok (.done a) s' ∧ (a = weight t x ∧ s' = s)) ∨
        ∃ q, Loop.Iter (lightTurn wide m) p q ∧ (q.2 = s ∧ ∃ order, LightInv m x q.1 order) ∧
          lightMeasure m q.1 < lightMeasure m p.1 := by
    rintro ⟨l, s'⟩ ⟨rfl, order, hI⟩
    cases hstack : l.stack with
    | nil =>
      refine .inl ⟨l.subtangleSize, s', ?_, ?_, rfl⟩
      · unfold lightTurn
        rw [hstack]
        rfl
      · have hexp := hI.explored
        rw [hstack] at hexp
        rw [hI.size]
        exact (weight_of_order hexp.nodup fun y => hexp.mem_iff.trans (hm.reach_iff hx)).symm
    | cons h rest =>
      obtain ⟨l', order', hturn, hI', hlt⟩ := lightTurn_again (s := s') hm hsmall hI hstack
      exact .inr ⟨(l', s'), hturn, ⟨rfl, order', hI'⟩, hlt⟩
  have hstart : ∃ order, LightInv m x ⟨[x], Bitset.reset (Bitset.requiredSize n), 0⟩ order :=
    ⟨[], lightInv_start hx n⟩
  obtain ⟨a, s', hrun, rfl, rfl⟩ := Loop.run_returns (fun p => lightMeasure m p.1) hstep
    (p := (⟨[x], Bitset.reset (Bitset.requiredSize n), 0⟩, s)) ⟨rfl, hstart⟩ hrounds
  exact hrun

/-! ## The ratings -/

/-- The rounds a search over the map can take. -/
def lightRounds (m : ApproverMap Hash) : ℕ :=
  (m.rows.map fun e => e.approvers.length).sum * m.rows.length + 2

/-- Each entry but that of the entry point is given the size of its cone. -/
theorem rateLoop_ok (hm : ReadsCone t ep m) (hsmall : m.rows.length ≤ 64) {rounds : ℕ}
    (hrounds : lightRounds m ≤ rounds) (n : ℕ) (s : τ) {es : List (IndexedHashSet Hash)}
    (hes : ∀ e ∈ es, e ∈ m.rows) (hnodup : (es.map (·.hash)).Nodup)
    {cwRatings : Table fun r : Hash × ℤ => r.1}
    (hfresh : ∀ e ∈ es, e.idx ≠ 0 → e.hash ∉ cwRatings.keys) :
    ∃ ratings, rateLoop wide m rounds (Bitset.requiredSize n) es cwRatings s = .ok ratings s ∧
      ∀ x, ratings.find? x = if ∃ e ∈ es, e.idx ≠ 0 ∧ e.hash = x then some (x, (weight t x : ℤ))
        else cwRatings.find? x := by
  induction es generalizing cwRatings with
  | nil => exact ⟨cwRatings, rfl, fun x => by simp⟩
  | cons e es ih =>
    have he := hes e List.mem_cons_self
    have hes' : ∀ e ∈ es, e ∈ m.rows := fun e he => hes e (List.mem_cons_of_mem _ he)
    rw [List.map_cons, List.nodup_cons] at hnodup
    rw [rateLoop]
    by_cases hidx : e.idx = 0
    · obtain ⟨ratings, hrun, hfind⟩ := ih hes' hnodup.2
        fun e' he' => hfresh e' (List.mem_cons_of_mem _ he')
      rw [if_pos hidx]
      refine ⟨ratings, hrun, fun x => ?_⟩
      rw [hfind]
      simp [hidx]
    · rw [if_neg hidx]
      have hkey : e.hash ∈ m.keys := List.mem_map_of_mem he
      have hlight : dfsLight wide m rounds e.hash (Bitset.reset (Bitset.requiredSize n)) s =
          .ok (weight t e.hash) s := by
        refine dfsLight_ok hm hsmall hkey n ?_ s
        rw [lightMeasure, List.length_singleton]
        unfold lightRounds at hrounds
        dsimp only
        rw [Nat.sub_zero]
        omega
      have hnew : e.hash ∉ cwRatings.keys := hfresh e List.mem_cons_self hidx
      have hfresh' : ∀ e' ∈ es, e'.idx ≠ 0 →
          e'.hash ∉ (cwRatings.insert (e.hash, (weight t e.hash : ℤ))).keys := by
        intro e' he' hi' hmem
        rcases Table.mem_keys_insert.mp hmem with hmem | heq
        · exact hfresh e' (List.mem_cons_of_mem _ he') hi' hmem
        · exact hnodup.1 (List.mem_map.mpr ⟨e', he', heq⟩)
      obtain ⟨ratings, hrun, hfind⟩ := ih hes' hnodup.2 hfresh'
      refine ⟨ratings, (bind_apply_ok hlight).trans hrun, fun x => ?_⟩
      rw [hfind, Table.find?_insert hnew]
      by_cases hx : e.hash = x
      · subst hx
        simp [hidx]
      · simp [hx]

omit [HashBytes Hash] in
/-- A loop that returns has searched from each entry but that of the entry point. -/
theorem rateLoop_searched {rounds words : ℕ} {es : List (IndexedHashSet Hash)}
    {cwRatings ratings : Table fun r : Hash × ℤ => r.1} {s s' : τ}
    (hr : rateLoop wide m rounds words es cwRatings s = .ok ratings s') (he : e ∈ es)
    (hidx : e.idx ≠ 0) :
    ∃ n, ∃ s₁ s₂ : τ, dfsLight wide m rounds e.hash (Bitset.reset words) s₁ = .ok n s₂ := by
  induction es generalizing cwRatings s with
  | nil => cases he
  | cons e' es ih =>
    rw [rateLoop] at hr
    rcases List.mem_cons.mp he with rfl | he
    · rw [if_neg hidx] at hr
      obtain ⟨n, s₁, hlight, -⟩ := bind_eq_ok.mp hr
      exact ⟨n, s, s₁, hlight⟩
    · split at hr
      · exact ih hr he
      · obtain ⟨n, s₁, -, hrest⟩ := bind_eq_ok.mp hr
        exact ih hrest he

omit [HashBytes Hash] in
/-- A search from the transaction with number 64 shifts by 64. -/
theorem dfsLight_shifts (hwide : wide 64 = none) (he : e ∈ m.rows) (hidx : e.idx = 64)
    (rounds words n : ℕ) (s s' : τ) :
    dfsLight wide m rounds e.hash (Bitset.reset words) s ≠ .ok n s' := by
  intro hr
  cases rounds with
  | zero => cases hr
  | succ k =>
    obtain ⟨turn, s₁, hturn, -⟩ := bind_eq_ok.mp hr
    have hshift : Bitset.shiftOne wide (64 % Bitset.structBits) = none := hwide
    unfold lightTurn at hturn
    dsimp only at hturn
    rw [Table.find?_key he] at hturn
    dsimp only at hturn
    rw [hidx, Bitset.isSet, hshift] at hturn
    cases hturn

/-- Ratings are exact when they are the weights of what the map holds. -/
theorem exact_of_find? (hm : ReadsCone t ep m) {ratings : Table fun r : Hash × ℤ => r.1}
    (hfind : ∀ x, ratings.find? x = if x ∈ m.keys then some (x, (weight t x : ℤ)) else none) :
    Exact t ep ⟨ratings, m⟩ := by
  intro x r
  rw [CwCalcResult.rating, hfind, ← hm.keys]
  by_cases hx : x ∈ m.keys
  · rw [if_pos hx]
    simp only [Option.map_some, Option.some.injEq]
    exact ⟨fun h => ⟨hx, h.symm⟩, fun h => h.2.symm⟩
  · rw [if_neg hx]
    exact iff_of_false (fun h => by cases h) fun h => hx h.1

/-- **Up to 64 transactions the weights are exact.** -/
theorem cwRatingCalculateDfs_ok (hdb : dfsFromDb ep t = .ok (m, m.rows.length) t')
    (hm : ReadsCone t ep m) (hsmall : m.rows.length ≤ 64) {rounds : ℕ}
    (hrounds : lightRounds m ≤ rounds) :
    ∃ cw t'', cwRatingCalculateDfs wide rounds (some ep) t = .ok cw t'' ∧ Exact t ep cw := by
  obtain ⟨first, hfirst⟩ : ∃ first : Table fun r : Hash × ℤ => r.1,
      first = Table.empty.insert (ep, (m.rows.length : ℤ)) := ⟨_, rfl⟩
  have hfind : ∀ x, first.find? x = if ep = x then some (ep, (weight t ep : ℤ)) else none := by
    intro x
    rw [hfirst, Table.find?_insert (by rintro ⟨⟩), hm.weight_eq]
    rfl
  have hkeys : first.keys = [ep] := by
    rw [hfirst, Table.keys, Table.rows_insert (by rintro ⟨⟩)]
    rfl
  have hep : ep ∈ m.keys := (hm.keys ep).mpr .refl
  unfold cwRatingCalculateDfs
  dsimp only
  rw [hdb]
  dsimp only
  rw [← hfirst]
  by_cases hone : m.rows.length ≤ 1
  · rw [if_pos hone]
    refine ⟨_, _, rfl, exact_of_find? hm fun x => ?_⟩
    have hall : ∀ x, x ∈ m.keys ↔ ep = x := by
      have hlen : m.keys.length ≤ 1 := by rwa [Table.keys, List.length_map]
      obtain ⟨k, hk⟩ := List.length_eq_one_iff.mp
        (Nat.le_antisymm hlen (List.length_pos_of_mem hep))
      intro x
      rw [hk] at hep ⊢
      rw [List.mem_singleton, List.mem_singleton.mp hep]
      exact eq_comm
    rw [hfind, if_congr (hall x) rfl rfl]
    by_cases hx : ep = x
    · subst hx
      rfl
    · rw [if_neg hx, if_neg hx]
  · rw [if_neg hone]
    have hfresh : ∀ e ∈ m.rows, e.idx ≠ 0 → e.hash ∉ first.keys := by
      intro e he hidx hmem
      rw [hkeys, List.mem_singleton] at hmem
      exact hidx ((hm.idx_eq_zero he).mpr hmem)
    obtain ⟨ratings, hrun, hrating⟩ : ∃ ratings,
        rateLoop wide m rounds (Bitset.requiredSize m.rows.length) m.rows first t' =
          .ok ratings t' ∧ _ :=
      rateLoop_ok hm hsmall hrounds m.rows.length t' (fun e he => he) m.nodup hfresh
    rw [hrun]
    refine ⟨_, _, rfl, exact_of_find? hm fun x => ?_⟩
    have hsome : (∃ e ∈ m.rows, e.idx ≠ 0 ∧ e.hash = x) ↔ x ∈ m.keys ∧ x ≠ ep := by
      constructor
      · rintro ⟨e, he, hidx, rfl⟩
        exact ⟨List.mem_map_of_mem he, fun heq => hidx ((hm.idx_eq_zero he).mpr heq)⟩
      · rintro ⟨hx, hne⟩
        obtain ⟨e, he, rfl⟩ := List.mem_map.mp hx
        exact ⟨e, he, fun hidx => hne ((hm.idx_eq_zero he).mp hidx), rfl⟩
    rw [hrating, if_congr hsome rfl rfl, hfind]
    by_cases hx : ep = x
    · subst hx
      rw [if_neg fun h => h.2 rfl, if_pos rfl, if_pos hep]
    · rw [if_neg hx]
      exact if_congr (and_iff_left fun h => hx h.symm) rfl rfl

/-- A machine that shifts by the count modulo 64. -/
def wrappingShift (n : ℕ) : Option (BitVec 64) := some (BitVec.twoPow 64 (n % 64))

/-- The entry point 1 with 64 approvers and 66, which 2 approves too. -/
def crowdedRows : List (Transaction (Fin 256)) :=
  plainTx 1 0 0 10 0 0 0 :: plainTx 2 1 66 10 0 0 0 ::
    (List.range 63).map (fun k => plainTx (Fin.ofNat 256 (k + 3)) 1 1 10 0 0 0) ++
      [plainTx 66 1 1 10 0 0 0]

theorem nodup_crowdedRows : (crowdedRows.map (·.hash)).Nodup := by decide +kernel

/-- 66 transactions, of which 2 is numbered 1 and 66 is numbered 65. -/
def crowdedTangle : Tangle (Fin 256) where
  transactions := ⟨crowdedRows, nodup_crowdedRows⟩
  milestones := ⟨Table.empty, nodup_noHash⟩
  faults := fun _ => []

theorem approvers_crowded :
    crowdedTangle.approvers 66 = [2] ∧ crowdedTangle.approvers 2 = [] := by decide +kernel

theorem weight_crowded : weight crowdedTangle 66 = 2 := by
  obtain ⟨h66, h2⟩ := approvers_crowded
  have hnodup : ([66, 2] : List (Fin 256)).Nodup := by decide
  refine weight_of_order hnodup fun y => ⟨fun hy => ?_, fun hy => ?_⟩
  · rcases List.mem_cons.mp hy with rfl | hy
    · exact .refl
    · rw [List.mem_singleton.mp hy]
      exact .single (by rw [h66]; exact List.mem_cons_self)
  · induction hy with
    | refl => exact List.mem_cons_self
    | tail _ hbc ih =>
      rcases List.mem_cons.mp ih with rfl | hb
      · rw [h66] at hbc
        exact List.mem_cons_of_mem _ hbc
      · rw [List.mem_singleton.mp hb, h2] at hbc
        cases hbc

end Rating

end Entangled
