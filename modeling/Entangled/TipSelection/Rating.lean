import Entangled.Common.Loop
import Entangled.Common.Search
import Entangled.TipSelection.Bitset
import Entangled.TipSelection.Transition
/-!
# Cumulative weights

`cw_rating_dfs_impl.c`: a search from the entry point reads the approvers of every transaction it
comes to from the store and numbers the transactions in the order it meets them. Then one search for
each of them but the entry point, over what was read, counts its future cone; which transactions it
has visited is kept in a bitset at their numbers.

The first search is proved here to read the future cone of the entry point (`dfsFromDb_ok`).
-/

namespace Entangled

open Prog

variable {Hash : Type} [DecidableEq Hash] [HashBytes Hash]

/-- `hash_to_indexed_hash_set_map_t`. -/
abbrev ApproverMap (Hash : Type) [DecidableEq Hash] := Table fun e : IndexedHashSet Hash => e.hash

/-- What the search from the store works on. -/
structure DbSearch (Hash : Type) [DecidableEq Hash] [HashBytes Hash] where
  tangle : Tangle Hash
  txToApprovers : ApproverMap Hash
  subtangleSize : ℕ

/-- What a search over the map works on. -/
structure LightSearch (Hash : Type) where
  stack : List Hash
  visited : Bitset
  subtangleSize : ℕ

namespace Rating

/-! ## The search from the store -/

/-- Load the approvers of a hash that the map does not hold yet, and add it. They are pushed and
added from the last one on. -/
def visitFromDb (h : Hash) (seen : List Hash) :
    EStateM Retcode (DbSearch Hash) (Search.Visit Hash) := do
  let approvers ← zoom DbSearch.tangle (fun t s => { s with tangle := t })
    (Tangle.loadHashesOfApprovers h)
  update fun s => { s with
    txToApprovers := s.txToApprovers.insert (.ofList h s.subtangleSize approvers.reverse)
    subtangleSize := s.subtangleSize + 1 }
  pure ⟨approvers, seen ++ [h], false⟩

/-- The rounds the search can take. -/
def dbRounds (t : Tangle Hash) : ℕ :=
  1 + t.transactions.rows.length * (t.transactions.rows.length + 1)

/-- `cw_rating_dfs_do_dfs_from_db`. What was seen is what the map holds. -/
def dfsFromDb (entryPoint : Hash) : TangleM Hash (ApproverMap Hash × ℕ) := fun t =>
  match Search.search visitFromDb .outOfRounds (dbRounds t) [entryPoint] []
      ⟨t, Table.empty, 0⟩ with
  | .ok _ s => .ok (s.txToApprovers, s.subtangleSize) s.tangle
  | .error e s => .error e s.tangle

/-! ## The searches over the map -/

section

variable {τ : Type} (wide : ℕ → Option (BitVec 64)) (m : ApproverMap Hash)

/-- One turn of the loop of `cw_rating_dfs_do_dfs_light`. -/
def lightTurn (l : LightSearch Hash) : EStateM TipRetcode τ (Loop.Turn (LightSearch Hash) ℕ) :=
  match l.stack with
  | [] => pure (.done l.subtangleSize)
  | h :: rest =>
    match m.find? h with
    | none => pure (.again { l with stack := rest })
    | some e =>
      match l.visited.isSet wide e.idx with
      | none => fail (.of .undefinedRead)
      | some true => pure (.again { l with stack := rest })
      | some false =>
        match l.visited.setTrue wide e.idx with
        | none => fail (.of .undefinedRead)
        | some visited =>
          pure (.again ⟨e.approvers.reverse ++ rest, visited, l.subtangleSize + 1⟩)

/-- `cw_rating_dfs_do_dfs_light`. -/
def dfsLight (rounds : ℕ) (ep : Hash) (visited : Bitset) : EStateM TipRetcode τ ℕ :=
  Loop.run (lightTurn wide m) (.of .outOfRounds) rounds ⟨[ep], visited, 0⟩

/-- The loop of `cw_rating_calculate_dfs` over the entries of the map. -/
def rateLoop (rounds words : ℕ) : List (IndexedHashSet Hash) → Table (fun r : Hash × ℤ => r.1) →
    EStateM TipRetcode τ (Table fun r : Hash × ℤ => r.1)
  | [], cwRatings => pure cwRatings
  | e :: es, cwRatings =>
    if e.idx = 0 then rateLoop rounds words es cwRatings
    else do
      let subTangleSize ← dfsLight wide m rounds e.hash (Bitset.reset words)
      rateLoop rounds words es (cwRatings.insert (e.hash, (subTangleSize : ℤ)))

end

/-- `cw_rating_calculate_dfs`, for what a shift by 64 or more gives. -/
def cwRatingCalculateDfs (wide : ℕ → Option (BitVec 64)) (rounds : ℕ) (entryPoint : Option Hash) :
    EStateM TipRetcode (Tangle Hash) (CwCalcResult Hash) := fun t =>
  match entryPoint with
  | none => .error .nullParam t
  | some ep =>
    match dfsFromDb ep t with
    | .error _ t' => .error .cwFailedInDfsFromDb t'
    | .ok (m, size) t' =>
      let first : Table fun r : Hash × ℤ => r.1 := Table.empty.insert (ep, (size : ℤ))
      if size ≤ 1 then .ok ⟨first, m⟩ t'
      else
        match rateLoop wide m rounds (Bitset.requiredSize size) m.rows first t' with
        | .error e t'' => .error e t''
        | .ok cwRatings t'' => .ok ⟨cwRatings, m⟩ t''

/-! ## What the search from the store reads -/

/-- The transactions that can be reached through approvers. -/
def FutureCone (t : Tangle Hash) (x y : Hash) : Prop :=
  Relation.ReflTransGen (fun a b => b ∈ t.approvers a) x y

/-- The map holds the approvers of the transactions seen so far, numbered as they were met. -/
structure DbInv (t : Tangle Hash) (ep : Hash) (stack seen : List Hash) (s : DbSearch Hash) :
    Prop where
  same : Tangle.SameTables t s.tangle
  keys : seen = s.txToApprovers.keys
  explored : Search.Explored t.approvers [] ep stack seen
  idx : s.txToApprovers.rows.map (·.idx) = List.range s.txToApprovers.rows.length
  size : s.subtangleSize = s.txToApprovers.rows.length
  approvers : ∀ e ∈ s.txToApprovers.rows, ∀ y, y ∈ e.approvers ↔ y ∈ t.approvers e.hash
  root : seen = [] ∧ stack = [ep] ∨ seen.head? = some ep

variable {t t' : Tangle Hash} {ep h x y : Hash} {stack seen : List Hash} {s s' : DbSearch Hash}
  {v : Search.Visit Hash} {m : ApproverMap Hash} {size : ℕ}

theorem visitFromDb_ok (hr : visitFromDb h seen s = .ok v s') :
    Tangle.SameTables s.tangle s'.tangle ∧ v = ⟨s.tangle.approvers h, seen ++ [h], false⟩ ∧
      s'.txToApprovers = s.txToApprovers.insert
        (.ofList h s.subtangleSize (s.tangle.approvers h).reverse) ∧
      s'.subtangleSize = s.subtangleSize + 1 := by
  obtain ⟨approvers, s₁, hload, hrest⟩ := bind_eq_ok.mp hr
  obtain ⟨t₁, ht₁, rfl⟩ := zoom_eq_ok.mp hload
  obtain ⟨rfl, hs⟩ := Tangle.loadHashesOfApprovers_ok ht₁
  cases hrest
  exact ⟨hs, rfl, rfl, rfl⟩

theorem dbInv_start (t : Tangle Hash) (ep : Hash) :
    DbInv t ep [ep] [] ⟨t, Table.empty, 0⟩ where
  same := .refl t
  keys := rfl
  explored := .start
  idx := rfl
  size := rfl
  approvers e he := by cases he
  root := .inl ⟨rfl, rfl⟩

/-- **A visit** extends the map by the next number. -/
theorem DbInv.visit (hI : DbInv t ep (h :: stack) seen s) (hh : h ∉ seen)
    (hr : visitFromDb h seen s = .ok v s') : DbInv t ep (v.next ++ stack) v.seen s' := by
  obtain ⟨hs, rfl, hmap, hsize⟩ := visitFromDb_ok hr
  have happ : s.tangle.approvers h = t.approvers h := Tangle.approvers_of_sameCore hI.same.sameCore
  have hkey : h ∉ s.txToApprovers.keys := hI.keys ▸ hh
  have hrows : s'.txToApprovers.rows = s.txToApprovers.rows ++
      [.ofList h s.subtangleSize (s.tangle.approvers h).reverse] := by
    rw [hmap, Table.rows_insert hkey]
  refine ⟨hI.same.trans hs, ?_, ?_, ?_, ?_, ?_, ?_⟩
  · rw [Table.keys, hrows, List.map_append, ← Table.keys, ← hI.keys]
    rfl
  · refine hI.explored.push (by simpa using hh) (fun y hy => happ ▸ hy) fun y hy => ?_
    exact ⟨h, List.mem_append_right _ List.mem_cons_self, happ ▸ hy⟩
  · rw [hrows, List.map_append, hI.idx, List.length_append, List.length_singleton,
      List.range_succ, List.map_singleton, hI.size]
    rfl
  · rw [hsize, hI.size, hrows, List.length_append, List.length_singleton]
  · intro e he y
    rw [hrows] at he
    rcases List.mem_append.mp he with he | he
    · exact hI.approvers e he y
    · rw [List.mem_singleton.mp he, IndexedHashSet.ofList, mem_hashSetAppend, happ]
      simp
  · right
    rcases hI.root with ⟨rfl, hstack⟩ | hroot
    · rw [(List.cons.inj hstack).1]
      rfl
    · rw [List.head?_append, hroot]
      rfl

theorem dbInvariant (t : Tangle Hash) (ep : Hash) :
    Search.Invariant visitFromDb (DbInv t ep) where
  skip hI hh := ⟨hI.same, hI.keys, hI.explored.skip (by simpa using hh), hI.idx, hI.size,
    hI.approvers, .inr (hI.root.resolve_left fun hnil => List.ne_nil_of_mem hh hnil.1)⟩
  push hI hh hr _ := hI.visit hh hr

theorem reach_iff_futureCone : Search.Reach t.approvers [] x y ↔ FutureCone t x y := by
  constructor
  · intro hr
    induction hr with
    | root _ => exact .refl
    | step _ hy _ ih => exact ih.tail hy
  · intro hr
    induction hr with
    | refl => exact .root List.not_mem_nil
    | tail _ hy ih => exact .step ih hy List.not_mem_nil

/-- **What was read**: an entry for each transaction in the future cone of the entry point, with its
approvers, numbered from 0 on. -/
structure ReadsCone (t : Tangle Hash) (ep : Hash) (m : ApproverMap Hash) : Prop where
  keys : ∀ x, x ∈ m.keys ↔ FutureCone t ep x
  idx : m.rows.map (·.idx) = List.range m.rows.length
  approvers : ∀ e ∈ m.rows, ∀ y, y ∈ e.approvers ↔ y ∈ t.approvers e.hash
  root : m.keys.head? = some ep

theorem dfsFromDb_ok (hr : dfsFromDb ep t = .ok (m, size) t') :
    ReadsCone t ep m ∧ size = m.rows.length := by
  unfold dfsFromDb at hr
  cases hs : Search.search visitFromDb .outOfRounds (dbRounds t) [ep] [] ⟨t, Table.empty, 0⟩ with
  | error e s =>
    rw [hs] at hr
    cases hr
  | ok seen s =>
    rw [hs] at hr
    cases hr
    have hI : DbInv t ep [] seen s := by
      rcases Search.search_run (dbInvariant t ep) (dbInv_start t ep) hs with
        hI | ⟨x, seen', s₁, v, -, hv, hstop, -⟩
      · exact hI
      · obtain ⟨-, rfl, -⟩ := visitFromDb_ok hv
        cases hstop
    have hroot := hI.root.resolve_left fun hnil => by cases hnil.2
    refine ⟨⟨fun x => ?_, hI.idx, hI.approvers, hI.keys ▸ hroot⟩, hI.size⟩
    rw [← hI.keys, hI.explored.mem_iff, reach_iff_futureCone]

/-- The search from the store does not run out of rounds. -/
theorem dfsFromDb_ne_outOfRounds : dfsFromDb ep t ≠ .error .outOfRounds t' := by
  intro hbad
  unfold dfsFromDb at hbad
  cases hs : Search.search visitFromDb .outOfRounds (dbRounds t) [ep] [] ⟨t, Table.empty, 0⟩ with
  | ok seen s =>
    rw [hs] at hbad
    cases hbad
  | error e s =>
    rw [hs] at hbad
    obtain rfl : e = .outOfRounds := by
      injection hbad
    refine Search.search_ne_out (dbInvariant t ep) (ep :: t.transactions.keys)
      t.transactions.rows.length ?_ ?_ (dbInv_start t ep) ?_ hs
    · -- a visit pushes at most all there is, and what it visits is stored or the entry point
      intro x seen s v s' hreach hv _
      obtain ⟨stack, hI, -⟩ := hreach
      obtain ⟨-, rfl, -⟩ := visitFromDb_ok hv
      have happ : s.tangle.approvers x = t.approvers x :=
        Tangle.approvers_of_sameCore hI.same.sameCore
      refine ⟨.inr ⟨?_, ?_⟩, List.mem_append_right _ List.mem_cons_self,
        fun y hy => List.mem_append_left _ hy⟩
      · rcases hI.explored.pending x List.mem_cons_self with hx | hx
        · cases hx
        · cases hx with
          | root => exact List.mem_cons_self
          | step _ hx _ => exact List.mem_cons_of_mem _ (Tangle.mem_keys_of_mem_approvers hx)
      · rw [happ]
        exact Tangle.length_approvers_le _ _
    · -- a visit fails by the store only
      intro x seen s s' _ hv
      rcases bind_eq_error.mp hv with hload | ⟨l, s₁, -, hrest⟩
      · obtain ⟨t₁, ht₁, -⟩ := zoom_eq_error.mp hload
        rcases bind_eq_error.mp ht₁ with hatt | ⟨u, t₂, -, hget⟩
        · rw [Tangle.attempt_eq] at hatt
          split at hatt
          · cases hatt
          · cases hatt
        · cases hget
      · cases hrest
    · have hunseen : Search.unseen (ep :: t.transactions.keys) [] ≤
          t.transactions.rows.length + 1 := by
        refine (List.countP_le_length).trans ?_
        rw [List.length_cons, Table.keys, List.length_map]
      have hmul := Nat.mul_le_mul_left t.transactions.rows.length hunseen
      unfold dbRounds
      rw [List.length_singleton]
      omega

end Rating

end Entangled
