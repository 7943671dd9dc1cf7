import Entangled.Model.Types
import Entangled.Common.Word
import Mathlib.Data.Set.Card
/-!
# State deltas

A state delta is a map from addresses to changes of balance, and a snapshot
state is one whose entries are balances. The code keeps it in a hash table that
iterates in the order of insertion and allocates one entry at a time, so each
mutator works on a `Heap`: the map, and the outcomes of the allocations to
come. A mutator that fails leaves the entries it has written.

`get` reads a delta as a function that is zero where there is no entry. Every
operation below has one lemma that says what it does to `get`.
-/

namespace Entangled

open Prog

variable {Hash : Type} [DecidableEq Hash]

/-- Addresses with their change of balance, in insertion order. -/
abbrev StateDelta (Hash : Type) := Table (Prod.fst : Hash × Int64 → Hash)

namespace StateDelta

/-- The value at an address, zero where there is no entry. -/
def get (d : StateDelta Hash) (a : Hash) : Int64 := ((d.find? a).map Prod.snd).getD 0

/-- A delta under construction, with the outcomes of its next allocations. -/
structure Heap (Hash : Type) where
  state : StateDelta Hash
  alloc : List Bool

/-- `malloc` of one entry. -/
def malloc : EStateM Retcode (Heap Hash) Unit := fun m =>
  match m.alloc with
  | [] => .ok () m
  | false :: rest => .ok () { m with alloc := rest }
  | true :: rest => .error .oom { m with alloc := rest }

/-- `state_delta_add`: a new entry, unless there is one. -/
def add (a : Hash) (v : Int64) : EStateM Retcode (Heap Hash) Unit := fun m =>
  if a ∈ m.state.keys then .ok () m
  else (malloc >>= fun _ => update fun m => { m with state := m.state.insert (a, v) }) m

/-- `state_delta_remove`. -/
def remove (d : StateDelta Hash) (a : Hash) : StateDelta Hash :=
  d.delete fun e => decide (e.1 = a)

/-- Overwrite the value of an entry that exists. -/
def replace (d : StateDelta Hash) (a : Hash) (v : Int64) : StateDelta Hash :=
  d.update (fun e => if e.1 = a then (e.1, v) else e) (fun e => by split <;> rfl)

/-- `state_delta_add_or_sum`. An entry that comes to zero is removed. -/
def addOrSum (a : Hash) (v : Int64) : EStateM Retcode (Heap Hash) Unit := fun m =>
  if v = 0 then .ok () m
  else match m.state.find? a with
    | some e =>
      if e.2 + v = 0 then .ok () { m with state := remove m.state a }
      else .ok () { m with state := replace m.state a (e.2 + v) }
    | none => add a v m

/-- `state_delta_add_or_replace`. -/
def addOrReplace (a : Hash) (v : Int64) : EStateM Retcode (Heap Hash) Unit := fun m =>
  match m.state.find? a with
  | some _ =>
    if v = 0 then .ok () { m with state := remove m.state a }
    else .ok () { m with state := replace m.state a v }
  | none => add a v m

/-- Do one step for every entry of a delta, in order. -/
def forEach (f : Hash → Int64 → EStateM Retcode (Heap Hash) Unit) :
    List (Hash × Int64) → EStateM Retcode (Heap Hash) Unit
  | [] => pure ()
  | e :: es => f e.1 e.2 >>= fun _ => forEach f es

/-- `state_delta_create_patch`: the heap holds the patch, `state` is read. -/
def createPatch (state delta : StateDelta Hash) : EStateM Retcode (Heap Hash) Unit :=
  forEach (fun a v => add a (get state a + v)) delta.rows

/-- `state_delta_apply_patch`. -/
def applyPatch (patch : StateDelta Hash) : EStateM Retcode (Heap Hash) Unit :=
  forEach (fun a v => if v ≠ 0 then addOrSum a v else pure ()) patch.rows

/-- `state_delta_merge_patch`. -/
def mergePatch (patch : StateDelta Hash) : EStateM Retcode (Heap Hash) Unit :=
  forEach addOrReplace patch.rows

/-- `state_delta_copy` into an empty delta. -/
def copy (src : StateDelta Hash) : EStateM Retcode (Heap Hash) Unit := forEach add src.rows

/-- The loop of `state_delta_is_consistent` over the entries still to check. -/
def isConsistentLoop : List (Hash × Int64) → StateDelta Hash → Bool × StateDelta Hash
  | [], d => (true, d)
  | e :: es, d =>
    if e.2 ≤ 0 then
      if e.2 < 0 then (false, d) else isConsistentLoop es (remove d e.1)
    else isConsistentLoop es d

/-- `state_delta_is_consistent`: no entry is negative. Zero entries met before
the answer is known are removed from the delta on the way. -/
def isConsistent (d : StateDelta Hash) : Bool × StateDelta Hash := isConsistentLoop d.rows d

/-- `state_delta_sum`, in words. -/
def sum (d : StateDelta Hash) : Int64 := d.rows.foldl (fun s e => s + e.2) 0

/-! ## Reading a delta -/

variable {d p state delta : StateDelta Hash} {a b : Hash} {v w : Int64}

/-- The value a list of entries gives an address. -/
def lookup (es : List (Hash × Int64)) (a : Hash) : Int64 :=
  ((es.find? fun e => decide (e.1 = a)).map Prod.snd).getD 0

@[simp] theorem lookup_nil : lookup ([] : List (Hash × Int64)) a = 0 := rfl

theorem lookup_cons {e : Hash × Int64} {es : List (Hash × Int64)} :
    lookup (e :: es) a = if e.1 = a then e.2 else lookup es a := by
  unfold lookup
  rw [List.find?_cons]
  by_cases h : e.1 = a <;> simp [h]

theorem lookup_of_not_mem {es : List (Hash × Int64)} (h : a ∉ es.map Prod.fst) :
    lookup es a = 0 := by
  have : es.find? (fun e => decide (e.1 = a)) = none := by
    rw [List.find?_eq_none]
    intro e he hea
    exact h (List.mem_map.mpr ⟨e, he, by simpa using hea⟩)
  rw [lookup, this]
  rfl

theorem get_of_mem {e : Hash × Int64} (h : e ∈ d.rows) : get d e.1 = e.2 := by
  rw [get, Table.find?_key h]
  rfl

theorem get_of_not_mem (h : a ∉ d.keys) : get d a = 0 := lookup_of_not_mem h

theorem get_of_rows_nil (h : d.rows = []) : get d a = 0 :=
  get_of_not_mem (by rw [Table.keys, h]; exact List.not_mem_nil)

theorem get_of_find? {e : Hash × Int64} (h : d.find? a = some e) : get d a = e.2 := by
  rw [get, h]
  rfl

@[simp] theorem get_empty : get (Table.empty : StateDelta Hash) a = 0 := rfl

theorem get_insert (h : a ∉ d.keys) : get (d.insert (a, v)) b = if a = b then v else get d b := by
  rw [get, Table.find?_insert h]
  split <;> rfl

theorem get_remove : get (remove d a) b = if a = b then 0 else get d b := by
  rw [get, remove, Table.find?_delete]
  cases h : d.find? b with
  | none => simp [get, h]
  | some e =>
    have he := Table.key_of_find? h
    rw [get_of_find? h]
    by_cases hab : a = b
    · rw [Option.filter_some_neg (by simp [he, hab]), if_pos hab]
      rfl
    · rw [Option.filter_some_pos (by simpa [he] using fun h => hab h.symm), if_neg hab]
      rfl

theorem get_replace (h : a ∈ d.keys) :
    get (replace d a v) b = if a = b then v else get d b := by
  obtain ⟨e, he⟩ := Table.mem_keys_iff.mp h
  rw [get, replace, Table.find?_update]
  by_cases hab : a = b
  · subst hab
    simp [he, Table.key_of_find? he]
  · rw [if_neg hab, get]
    cases hb : d.find? b with
    | none => rfl
    | some e' =>
      have hk := Table.key_of_find? hb
      have : ¬ e'.1 = a := fun h => hab (h.symm.trans hk)
      simp [this]

/-! ## Totals -/

/-- The total over the entries, in unbounded integers. -/
def total (d : StateDelta Hash) : ℤ := (d.rows.map fun e => e.2.toInt).sum

theorem total_eq_finsum (d : StateDelta Hash) : total d = ∑ᶠ a, (get d a).toInt := by
  rw [total, Table.sum_rows_eq_finsum]
  refine finsum_congr fun a => ?_
  unfold get
  cases d.find? a with
  | none => rfl
  | some e => rfl

theorem finite_support_get (d : StateDelta Hash) :
    (Function.support fun a => (get d a).toInt).Finite := by
  refine d.keys.finite_toSet.subset fun a ha => ?_
  by_contra hn
  refine ha ?_
  dsimp only
  rw [get_of_not_mem hn]
  rfl

omit [DecidableEq Hash] in
theorem sum_eq_ofInt_total (d : StateDelta Hash) : sum d = Int64.ofInt (total d) := by
  have hfold : ∀ (es : List (Hash × Int64)) (x : ℤ),
      es.foldl (fun s e => s + e.2) (Int64.ofInt x) =
        Int64.ofInt (x + (es.map fun e => e.2.toInt).sum) := by
    intro es
    induction es with
    | nil => intro x; simp
    | cons e es ih =>
      intro x
      rw [List.foldl_cons, Word.ofInt_add_word, ih, List.map_cons, List.sum_cons, Int.add_assoc]
  have := hfold d.rows 0
  rwa [Int.zero_add] at this

/-- The sum of a delta that holds the words of some integers is the word of
their sum. -/
theorem sum_eq_ofInt_finsum {x : Hash → ℤ} (hx : ∀ a, get d a = Int64.ofInt (x a))
    (hfin : (Function.support x).Finite) : sum d = Int64.ofInt (∑ᶠ a, x a) := by
  rw [sum_eq_ofInt_total, Word.ofInt_eq_iff, total_eq_finsum,
    ← finsum_sub_distrib (finite_support_get d) hfin]
  refine finsum_induction (fun z => (2 ^ 64 : ℤ) ∣ z) (dvd_zero _) (fun _ _ => dvd_add) fun a => ?_
  rw [← Word.ofInt_eq_iff, Int64.ofInt_toInt, hx a]

/-- No entry is zero: what `addOrSum` alone builds. -/
def NoZero (d : StateDelta Hash) : Prop := ∀ e ∈ d.rows, e.2 ≠ 0

theorem NoZero.mem_keys_iff (h : NoZero d) : a ∈ d.keys ↔ get d a ≠ 0 := by
  constructor
  · intro ha
    obtain ⟨e, he⟩ := Table.mem_keys_iff.mp ha
    rw [get_of_find? he]
    exact h e (Table.mem_of_find? he)
  · intro ha
    by_contra hn
    exact ha (get_of_not_mem hn)

omit [DecidableEq Hash] in
theorem noZero_empty : NoZero (Table.empty : StateDelta Hash) := by
  intro e he
  cases he

theorem NoZero.insert (h : NoZero d) (hv : v ≠ 0) : NoZero (d.insert (a, v)) := by
  by_cases ha : a ∈ d.keys
  · rwa [Table.insert_of_mem ha]
  · intro e he
    rw [Table.rows_insert ha, List.mem_append, List.mem_singleton] at he
    rcases he with he | rfl
    · exact h e he
    · exact hv

theorem NoZero.remove (h : NoZero d) : NoZero (remove d a) :=
  fun e he => h e (Table.mem_delete.mp he).1

theorem NoZero.replace (h : NoZero d) (hv : v ≠ 0) : NoZero (replace d a v) := by
  intro e he
  obtain ⟨e', he', rfl⟩ := Table.mem_update.mp he
  split
  · exact hv
  · exact h e' he'

/-! ## What each mutator does -/

variable {m m' : Heap Hash} {e : Retcode}

theorem add_of_mem (h : a ∈ m.state.keys) : add a v m = .ok () m := if_pos h

/-- A new entry needs one allocation, and is written only when it succeeds. -/
theorem add_of_not_mem (h : a ∉ m.state.keys) :
    add a v m = if m.alloc.head? = some true
      then .error .oom { m with alloc := m.alloc.tail }
      else .ok () { state := m.state.insert (a, v), alloc := m.alloc.tail } := by
  unfold add
  rw [if_neg h]
  cases m with
  | mk d al =>
    rcases al with _ | ⟨_ | _, al⟩ <;> rfl

theorem add_ok (ha : a ∉ m.state.keys) (h : add a v m = .ok () m') :
    m'.state = m.state.insert (a, v) := by
  rw [add_of_not_mem ha] at h
  split at h
  · cases h
  · cases h
    rfl

/-- **`add_or_sum` adds at one address.** -/
theorem get_addOrSum (h : addOrSum a v m = .ok () m') :
    get m'.state b = get m.state b + if a = b then v else 0 := by
  unfold addOrSum at h
  by_cases hv : v = 0
  · rw [if_pos hv] at h
    cases h
    simp [hv]
  · rw [if_neg hv] at h
    cases hf : m.state.find? a with
    | none =>
      simp only [hf] at h
      have ha := Table.find?_eq_none_iff.mp hf
      rw [add_ok ha h, get_insert ha]
      split
      · rename_i hab
        rw [← hab, get_of_not_mem ha, Int64.zero_add]
      · rw [Int64.add_zero]
    | some x =>
      have hmem : a ∈ m.state.keys := Table.mem_keys_iff.mpr ⟨x, hf⟩
      have hx : get m.state a = x.2 := get_of_find? hf
      simp only [hf] at h
      by_cases hz : x.2 + v = 0
      · rw [if_pos hz] at h
        cases h
        rw [get_remove]
        split
        · rename_i hab
          rw [← hab, hx, hz]
        · rw [Int64.add_zero]
      · rw [if_neg hz] at h
        cases h
        rw [get_replace hmem]
        split
        · rename_i hab
          rw [← hab, hx]
        · rw [Int64.add_zero]

theorem NoZero.addOrSum (hd : NoZero m.state) (h : addOrSum a v m = .ok () m') :
    NoZero m'.state := by
  unfold StateDelta.addOrSum at h
  by_cases hv : v = 0
  · rw [if_pos hv] at h
    cases h
    exact hd
  · rw [if_neg hv] at h
    cases hf : m.state.find? a with
    | none =>
      simp only [hf] at h
      rw [add_ok (Table.find?_eq_none_iff.mp hf) h]
      exact hd.insert hv
    | some x =>
      simp only [hf] at h
      by_cases hz : x.2 + v = 0
      · rw [if_pos hz] at h
        cases h
        exact hd.remove
      · rw [if_neg hz] at h
        cases h
        exact hd.replace hz

/-- Which addresses have an entry after `add_or_sum` changes at most at one. -/
theorem mem_keys_addOrSum (hab : a ≠ b) (h : addOrSum a v m = .ok () m') :
    b ∈ m'.state.keys ↔ b ∈ m.state.keys := by
  unfold addOrSum at h
  split at h
  · cases h
    rfl
  · split at h
    · split at h <;> cases h
      · rw [Table.mem_keys_iff, Table.mem_keys_iff]
        simp only [remove, Table.find?_delete]
        cases hb : m.state.find? b with
        | none => simp
        | some y =>
          have hk := Table.key_of_find? hb
          rw [Option.filter_some_pos (by simpa [hk] using fun h => hab h.symm)]
      · rw [show (replace m.state a _).keys = m.state.keys from Table.keys_update]
    · rename_i hf
      have ha := Table.find?_eq_none_iff.mp hf
      rw [add_ok ha h, Table.mem_keys_iff, Table.mem_keys_iff, Table.find?_insert ha, if_neg hab]

/-- **`add_or_replace` overwrites one address.** -/
theorem get_addOrReplace (h : addOrReplace a v m = .ok () m') :
    get m'.state b = if a = b then v else get m.state b := by
  unfold addOrReplace at h
  cases hf : m.state.find? a with
  | none =>
    simp only [hf] at h
    have ha := Table.find?_eq_none_iff.mp hf
    rw [add_ok ha h, get_insert ha]
  | some x =>
    simp only [hf] at h
    by_cases hv : v = 0
    · rw [if_pos hv] at h
      cases h
      rw [get_remove, hv]
    · rw [if_neg hv] at h
      cases h
      rw [get_replace (Table.mem_keys_iff.mpr ⟨x, hf⟩)]

theorem NoZero.addOrReplace (hd : NoZero m.state) (hv : v ≠ 0)
    (h : addOrReplace a v m = .ok () m') : NoZero m'.state := by
  unfold StateDelta.addOrReplace at h
  cases hf : m.state.find? a with
  | none =>
    simp only [hf] at h
    rw [add_ok (Table.find?_eq_none_iff.mp hf) h]
    exact hd.insert hv
  | some x =>
    simp only [hf, if_neg hv] at h
    cases h
    exact hd.replace hv

theorem addOrSum_of_mem (h : a ∈ m.state.keys) :
    ∃ d', addOrSum a v m = .ok () { m with state := d' } := by
  unfold addOrSum
  obtain ⟨x, hx⟩ := Table.mem_keys_iff.mp h
  rw [hx]
  dsimp only
  split
  · exact ⟨m.state, rfl⟩
  · split
    · exact ⟨_, rfl⟩
    · exact ⟨_, rfl⟩

theorem addOrSum_of_not_mem (hv : v ≠ 0) (h : a ∉ m.state.keys) : addOrSum a v m = add a v m := by
  unfold addOrSum
  rw [if_neg hv, Table.find?_eq_none_iff.mpr h]

/-! With no failure pending, none shows up later. -/

theorem add_of_nil (h : m.alloc = []) : ∃ m', add a v m = .ok () m' ∧ m'.alloc = [] := by
  by_cases ha : a ∈ m.state.keys
  · exact ⟨m, add_of_mem ha, h⟩
  · rw [add_of_not_mem ha, h]
    exact ⟨_, rfl, rfl⟩

theorem addOrSum_of_nil (h : m.alloc = []) :
    ∃ m', addOrSum a v m = .ok () m' ∧ m'.alloc = [] := by
  by_cases ha : a ∈ m.state.keys
  · obtain ⟨d', hd⟩ := addOrSum_of_mem (v := v) ha
    exact ⟨_, hd, h⟩
  · by_cases hv : v = 0
    · exact ⟨m, if_pos hv, h⟩
    · rw [addOrSum_of_not_mem hv ha]
      exact add_of_nil h

omit [DecidableEq Hash] in
theorem forEach_of_nil {f : Hash → Int64 → EStateM Retcode (Heap Hash) Unit}
    (hf : ∀ a v m, m.alloc = [] → ∃ m', f a v m = .ok () m' ∧ m'.alloc = [])
    {es : List (Hash × Int64)} (h : m.alloc = []) :
    ∃ m', forEach f es m = .ok () m' ∧ m'.alloc = [] := by
  induction es generalizing m with
  | nil => exact ⟨m, rfl, h⟩
  | cons x es ih =>
    obtain ⟨m₁, h₁, hal⟩ := hf x.1 x.2 m h
    rw [forEach, bind_apply_ok h₁]
    exact ih hal

theorem createPatch_of_nil (h : m.alloc = []) :
    ∃ m', createPatch state delta m = .ok () m' ∧ m'.alloc = [] :=
  forEach_of_nil (fun _ _ _ => add_of_nil) h

theorem applyPatch_of_nil (h : m.alloc = []) :
    ∃ m', applyPatch p m = .ok () m' ∧ m'.alloc = [] := by
  refine forEach_of_nil (fun a v m hm => ?_) h
  split
  · exact addOrSum_of_nil hm
  · exact ⟨m, rfl, hm⟩

/-! ## Whole patches

The loops run over the entries of a patch, whose addresses are distinct, so an
address is met once. -/

variable {es : List (Hash × Int64)}

theorem get_applyRows (hnd : (es.map Prod.fst).Nodup)
    (h : forEach (fun a v => if v ≠ 0 then addOrSum a v else pure ()) es m = .ok () m') :
    get m'.state b = get m.state b + lookup es b := by
  induction es generalizing m with
  | nil =>
    cases h
    rw [lookup_nil, Int64.add_zero]
  | cons x es ih =>
    rw [List.map_cons, List.nodup_cons] at hnd
    obtain ⟨_, m₁, h₁, h₂⟩ := bind_eq_ok.mp h
    have hstep : get m₁.state b = get m.state b + if x.1 = b then x.2 else 0 := by
      by_cases hx : x.2 = 0
      · simp only [hx, ne_eq, not_true_eq_false, if_false, pure_apply] at h₁
        cases h₁
        simp [hx]
      · simp only [ne_eq, hx, not_false_eq_true, if_true] at h₁
        exact get_addOrSum h₁
    rw [ih hnd.2 h₂, hstep, lookup_cons]
    split
    · rename_i hxb
      rw [lookup_of_not_mem (hxb ▸ hnd.1), Int64.add_zero]
    · rw [Int64.add_zero]

/-- **Applying a patch adds it.** -/
theorem get_applyPatch (h : applyPatch p m = .ok () m') :
    get m'.state b = get m.state b + get p b :=
  get_applyRows p.nodup h

theorem NoZero.applyPatch (hd : NoZero m.state) (h : applyPatch p m = .ok () m') :
    NoZero m'.state := by
  unfold StateDelta.applyPatch at h
  generalize p.rows = es at h
  induction es generalizing m with
  | nil =>
    cases h
    exact hd
  | cons x es ih =>
    obtain ⟨_, m₁, h₁, h₂⟩ := bind_eq_ok.mp h
    refine ih ?_ h₂
    dsimp only at h₁
    split at h₁
    · exact hd.addOrSum h₁
    · cases h₁
      exact hd

/-- The entries a patch adds to a delta, one allocation each. -/
def newEntries (d : StateDelta Hash) (es : List (Hash × Int64)) : ℕ :=
  es.countP fun e => decide (e.2 ≠ 0 ∧ e.1 ∉ d.keys)

/-- A delta without zeros adds an entry at each address it changes and the other
has none for. -/
theorem newEntries_eq_ncard (h : NoZero p) :
    newEntries d p.rows = Set.ncard {a | get p a ≠ 0 ∧ a ∉ d.keys} := by
  have hset : {a | get p a ≠ 0 ∧ a ∉ d.keys} =
      ↑((p.rows.filter fun e => decide (e.2 ≠ 0 ∧ e.1 ∉ d.keys)).map Prod.fst).toFinset := by
    ext a
    rw [Set.mem_ofPred_eq, ← h.mem_keys_iff]
    simp only [Table.keys, List.mem_map, List.coe_toFinset, List.mem_filter, decide_eq_true_eq,
      Set.mem_ofPred_eq]
    constructor
    · rintro ⟨⟨e, he, rfl⟩, hn⟩
      exact ⟨e, ⟨he, h e he, hn⟩, rfl⟩
    · rintro ⟨e, ⟨he, -, hn⟩, rfl⟩
      exact ⟨⟨e, he, rfl⟩, hn⟩
  rw [hset, Set.ncard_coe_finset, List.toFinset_card_of_nodup, List.length_map, newEntries,
    List.countP_eq_length_filter]
  exact p.nodup.sublist (List.filter_sublist.map _)

theorem newEntries_congr {d' : StateDelta Hash}
    (h : ∀ e ∈ es, e.1 ∈ d'.keys ↔ e.1 ∈ d.keys) : newEntries d' es = newEntries d es := by
  refine List.countP_congr fun e he => ?_
  simp only [decide_eq_true_eq, h e he]

theorem applyRows_ok_iff (hnd : (es.map Prod.fst).Nodup) :
    (∃ m', forEach (fun a v => if v ≠ 0 then addOrSum a v else pure ()) es m = .ok () m') ↔
      true ∉ m.alloc.take (newEntries m.state es) := by
  induction es generalizing m with
  | nil => simp [forEach, newEntries]
  | cons x es ih =>
    rw [List.map_cons, List.nodup_cons] at hnd
    have hcount : newEntries m.state (x :: es) = newEntries m.state es +
        if x.2 ≠ 0 ∧ x.1 ∉ m.state.keys then 1 else 0 := by
      simp only [newEntries, List.countP_cons, decide_eq_true_eq]
    have hother : ∀ m₁ v, addOrSum x.1 v m = .ok () m₁ → ∀ e ∈ es,
        e.1 ∈ m₁.state.keys ↔ e.1 ∈ m.state.keys := by
      intro m₁ v h₁ e he
      refine mem_keys_addOrSum (fun hxe => hnd.1 ?_) h₁
      exact hxe ▸ List.mem_map.mpr ⟨e, he, rfl⟩
    rw [forEach]
    by_cases hx : x.2 = 0
    · simp only [hx, ne_eq, not_true_eq_false, if_false, false_and, Nat.add_zero] at hcount ⊢
      rw [hcount, ← ih hnd.2]
      rfl
    by_cases hmem : x.1 ∈ m.state.keys
    · obtain ⟨d', hd'⟩ := addOrSum_of_mem (v := x.2) hmem
      simp only [ne_eq, hx, hmem, not_false_eq_true, not_true_eq_false, and_false, if_true,
        if_false, Nat.add_zero] at hcount ⊢
      rw [hcount, bind_apply_ok hd', ih hnd.2, newEntries_congr (hother _ _ hd')]
    · -- one allocation decides, and the rest of the outcomes is for the rest
      simp only [ne_eq, hx, hmem, not_false_eq_true, and_self, if_true] at hcount ⊢
      have hadd := add_of_not_mem (v := x.2) hmem
      rw [← addOrSum_of_not_mem hx hmem] at hadd
      rw [hcount]
      rcases hal : m.alloc with _ | ⟨_ | _, rest⟩
      · rw [hal] at hadd
        have hok : addOrSum x.1 x.2 m = .ok () ⟨m.state.insert (x.1, x.2), []⟩ := hadd
        rw [bind_apply_ok hok, ih hnd.2]
        simp
      · rw [hal] at hadd
        have hok : addOrSum x.1 x.2 m = .ok () ⟨m.state.insert (x.1, x.2), rest⟩ := hadd
        rw [bind_apply_ok hok, ih hnd.2, newEntries_congr (hother _ _ hok), List.take_succ_cons]
        simp
      · rw [hal] at hadd
        have herr : addOrSum x.1 x.2 m = .error .oom { m with alloc := rest } := hadd
        rw [bind_apply_error herr, List.take_succ_cons]
        simp

/-- **Applying a patch fails exactly on a failed allocation** of one of the
entries it has to add. -/
theorem applyPatch_ok_iff :
    (∃ m', applyPatch p m = .ok () m') ↔ true ∉ m.alloc.take (newEntries m.state p.rows) :=
  applyRows_ok_iff p.nodup

theorem get_mergeRows (hnd : (es.map Prod.fst).Nodup) (h : forEach addOrReplace es m = .ok () m') :
    get m'.state b = if b ∈ es.map Prod.fst then lookup es b else get m.state b := by
  induction es generalizing m with
  | nil =>
    cases h
    simp
  | cons x es ih =>
    rw [List.map_cons, List.nodup_cons] at hnd
    obtain ⟨_, m₁, h₁, h₂⟩ := bind_eq_ok.mp h
    rw [ih hnd.2 h₂, get_addOrReplace h₁, lookup_cons, List.map_cons]
    by_cases hxb : x.1 = b
    · subst hxb
      simp [hnd.1]
    · have hbx : ¬ b = x.1 := fun h => hxb h.symm
      simp only [List.mem_cons, hxb, hbx, false_or, if_false]

/-- **Merging a patch overwrites the addresses it has entries for**, and no
others. -/
theorem get_mergePatch (h : mergePatch p m = .ok () m') :
    get m'.state b = if b ∈ p.keys then get p b else get m.state b :=
  get_mergeRows p.nodup h

theorem NoZero.mergePatch (hd : NoZero m.state) (hp : NoZero p) (h : mergePatch p m = .ok () m') :
    NoZero m'.state := by
  unfold StateDelta.mergePatch at h
  have hes : ∀ e ∈ p.rows, e.2 ≠ 0 := hp
  generalize p.rows = es at h hes
  induction es generalizing m with
  | nil =>
    cases h
    exact hd
  | cons x es ih =>
    obtain ⟨_, m₁, h₁, h₂⟩ := bind_eq_ok.mp h
    refine ih (hd.addOrReplace (hes x List.mem_cons_self) h₁) h₂ fun e he => ?_
    exact hes e (List.mem_cons_of_mem _ he)

theorem rows_forEach_add {f : Hash × Int64 → Int64}
    (hnd : (m.state.keys ++ es.map Prod.fst).Nodup)
    (h : forEach (fun a v => add a (f (a, v))) es m = .ok () m') :
    m'.state.rows = m.state.rows ++ es.map fun e => (e.1, f e) := by
  induction es generalizing m with
  | nil =>
    cases h
    simp
  | cons x es ih =>
    obtain ⟨_, m₁, h₁, h₂⟩ := bind_eq_ok.mp h
    have hx : x.1 ∉ m.state.keys := by
      rw [List.map_cons, List.nodup_append] at hnd
      exact fun hx => hnd.2.2 x.1 hx x.1 List.mem_cons_self rfl
    have hrows : m₁.state.rows = m.state.rows ++ [(x.1, f x)] := by
      rw [add_ok hx h₁]
      exact Table.rows_insert (r := (x.1, f x)) hx
    have hkeys : m₁.state.keys = m.state.keys ++ [x.1] := by
      rw [Table.keys, hrows, List.map_append]
      rfl
    rw [ih (by rw [hkeys]; simpa using hnd) h₂, hrows]
    simp

/-- **A patch is the state after the change, at the addresses the change
touches.** -/
theorem rows_createPatch (hm : m.state = Table.empty)
    (h : createPatch state delta m = .ok () m') :
    m'.state.rows = delta.rows.map fun e => (e.1, get state e.1 + e.2) := by
  have hnd : (m.state.keys ++ delta.rows.map Prod.fst).Nodup := by
    rw [hm]
    exact delta.nodup
  have := rows_forEach_add (f := fun e => get state e.1 + e.2) hnd h
  rwa [hm] at this

/-- Adding entries at new addresses takes one allocation each. -/
theorem forEach_add_ok_iff (hnd : (m.state.keys ++ es.map Prod.fst).Nodup) :
    (∃ m', forEach add es m = .ok () m') ↔ true ∉ m.alloc.take es.length := by
  induction es generalizing m with
  | nil => simp [forEach]
  | cons x es ih =>
    have hx : x.1 ∉ m.state.keys := by
      rw [List.map_cons, List.nodup_append] at hnd
      exact fun hx => hnd.2.2 x.1 hx x.1 List.mem_cons_self rfl
    have hadd := add_of_not_mem (v := x.2) hx
    have hkeys : (m.state.insert (x.1, x.2)).keys = m.state.keys ++ [x.1] := by
      rw [Table.keys, Table.rows_insert (r := (x.1, x.2)) hx, List.map_append]
      rfl
    have hnd' : ((m.state.insert (x.1, x.2)).keys ++ es.map Prod.fst).Nodup := by
      rw [hkeys]
      simpa using hnd
    rw [forEach, List.length_cons]
    rcases hal : m.alloc with _ | ⟨_ | _, rest⟩
    · rw [hal] at hadd
      have hok : add x.1 x.2 m = .ok () ⟨m.state.insert (x.1, x.2), []⟩ := hadd
      rw [bind_apply_ok hok, ih hnd']
      simp
    · rw [hal] at hadd
      have hok : add x.1 x.2 m = .ok () ⟨m.state.insert (x.1, x.2), rest⟩ := hadd
      rw [bind_apply_ok hok, ih hnd', List.take_succ_cons]
      simp
    · rw [hal] at hadd
      have herr : add x.1 x.2 m = .error .oom { m with alloc := rest } := hadd
      rw [bind_apply_error herr, List.take_succ_cons]
      simp

/-- **A copy fails exactly on a failed allocation** of one of its entries. -/
theorem copy_ok_iff (d : StateDelta Hash) (al : List Bool) :
    (∃ m', copy d ⟨Table.empty, al⟩ = .ok () m') ↔ true ∉ al.take d.rows.length :=
  forEach_add_ok_iff d.nodup

theorem rows_copy (hm : m.state = Table.empty) (h : copy d m = .ok () m') : m'.state = d := by
  have hnd : (m.state.keys ++ d.rows.map Prod.fst).Nodup := by
    rw [hm]
    exact d.nodup
  have := rows_forEach_add (f := Prod.snd) hnd h
  ext1
  rw [this, hm]
  exact List.map_id _

theorem isConsistentLoop_fst (es : List (Hash × Int64)) (d : StateDelta Hash) :
    (isConsistentLoop es d).1 = true ↔ ∀ e ∈ es, 0 ≤ e.2 := by
  induction es generalizing d with
  | nil => simp [isConsistentLoop]
  | cons x es ih =>
    rw [isConsistentLoop, List.forall_mem_cons]
    have hle : (x.2 ≤ 0) = (x.2.toInt ≤ 0) := propext Int64.le_iff_toInt_le
    have hlt : (x.2 < 0) = (x.2.toInt < 0) := propext Int64.lt_iff_toInt_lt
    have hge : (0 ≤ x.2) = (0 ≤ x.2.toInt) := propext Int64.le_iff_toInt_le
    split
    · split
      · simp only [Bool.false_eq_true, false_iff, not_and]
        intro h
        rw [hge] at h
        rw [hlt] at *
        omega
      · rw [ih]
        refine ⟨fun h => ⟨?_, h⟩, fun h => h.2⟩
        rw [hge]
        rw [hlt] at *
        omega
    · rw [ih]
      refine ⟨fun h => ⟨?_, h⟩, fun h => h.2⟩
      rw [hge]
      rw [hle] at *
      omega

/-- **The consistency test is that no entry is negative.** -/
theorem isConsistent_iff : (isConsistent d).1 = true ↔ ∀ e ∈ d.rows, 0 ≤ e.2 :=
  isConsistentLoop_fst d.rows d

/-- A patch passes the test when the change leaves no balance it touches
negative, in words. -/
theorem isConsistent_createPatch (hm : m.state = Table.empty)
    (h : createPatch state delta m = .ok () m') :
    (isConsistent m'.state).1 = true ↔ ∀ e ∈ delta.rows, 0 ≤ get state e.1 + e.2 := by
  rw [isConsistent_iff, rows_createPatch hm h]
  exact List.forall_mem_map

end StateDelta

end Entangled
