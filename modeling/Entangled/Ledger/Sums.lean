import Entangled.Ledger.Delta
import Entangled.Common.Orders
/-!
# The sums of the ledger

`get_latest_delta` adds the bundles of a cone to a delta, one transaction after
the other, `state_delta_apply_patch` adds the running delta, and
`state_delta_create_patch` adds the balances of the latest snapshot. Nothing
looks at a sum before the patch is tested. `ExactSums` says that the words
these additions leave are the integers they stand for, whatever point the
additions have come to.

`exactSums_iff` is the condition for one order of the cone, and
`forall_orders_exactSums_iff` the one for all of them: at every address the
positive changes of the other bundles and the part of a bundle that was added
stay below `2 ^ 63`, the negative ones above `-2 ^ 63`, and so do the running
delta and the balance on top of the net change.
-/

namespace Entangled

open Prog Search Orders

variable {Hash : Type} [DecidableEq Hash]

namespace StateDelta

/-- What a list of amounts adds up to at an address, in unbounded integers. -/
def amountAt (es : List (Hash × Int64)) (a : Hash) : ℤ :=
  (es.map fun e => if e.1 = a then e.2.toInt else 0).sum

/-- Calls of `state_delta_add_or_sum`, one for each amount, that all returned and
took one delta to the other. -/
inductive Summed : List (Hash × Int64) → StateDelta Hash → StateDelta Hash → Prop
  | nil {d : StateDelta Hash} : Summed [] d d
  | cons {a : Hash} {v : Int64} {m m' : Heap Hash} {es : List (Hash × Int64)}
      {d : StateDelta Hash} : addOrSum a v m = .ok () m' → Summed es m'.state d →
      Summed ((a, v) :: es) m.state d

variable {es es' more : List (Hash × Int64)} {d d' d₁ latest : StateDelta Hash} {a : Hash}
  {m m' : Heap Hash}

@[simp] theorem amountAt_nil : amountAt ([] : List (Hash × Int64)) a = 0 := rfl

theorem amountAt_cons (e : Hash × Int64) :
    amountAt (e :: es) a = (if e.1 = a then e.2.toInt else 0) + amountAt es a := by
  simp [amountAt]

@[simp] theorem amountAt_append : amountAt (es ++ es') a = amountAt es a + amountAt es' a := by
  simp [amountAt]

theorem amountAt_flatMap {ι : Type} (order : List ι) (f : ι → List (Hash × Int64)) :
    amountAt (order.flatMap f) a = (order.map fun x => amountAt (f x) a).sum := by
  induction order with
  | nil => rfl
  | cons x order ih => rw [List.flatMap_cons, amountAt_append, ih, List.map_cons, List.sum_cons]

/-- The entries of a delta have distinct addresses, so they add up to its value. -/
theorem amountAt_rows (p : StateDelta Hash) (a : Hash) : amountAt p.rows a = (get p a).toInt := by
  have hrows : ∀ es : List (Hash × Int64), (es.map Prod.fst).Nodup →
      amountAt es a = (lookup es a).toInt := by
    intro es
    induction es with
    | nil => intro _; rfl
    | cons e es ih =>
      intro hnd
      rw [List.map_cons, List.nodup_cons] at hnd
      rw [amountAt_cons, lookup_cons, ih hnd.2]
      split
      · rename_i hea
        rw [lookup_of_not_mem (hea ▸ hnd.1)]
        exact Int.add_zero _
      · rw [Int.zero_add]
  exact hrows p.rows p.nodup

theorem Summed.append (h : Summed es d d₁) (h' : Summed es' d₁ d') :
    Summed (es ++ es') d d' := by
  induction h with
  | nil => exact h'
  | cons hadd _ ih => exact .cons hadd (ih h')

/-- **Where the additions have come to**: the delta holds the words of the exact
sums. -/
theorem Summed.get_eq (h : Summed es d d') {x : Hash → ℤ} (hx : ∀ a, d.get a = Int64.ofInt (x a)) :
    ∀ a, d'.get a = Int64.ofInt (x a + amountAt es a) := by
  induction h generalizing x with
  | nil => simpa using hx
  | @cons b v m m' es d hadd _ ih =>
    intro a
    have hstep : ∀ a, m'.state.get a = Int64.ofInt (x a + if b = a then v.toInt else 0) := by
      intro a
      rw [get_addOrSum hadd, hx a]
      split
      · exact Word.ofInt_add_word _ _
      · rw [Int64.add_zero, Int.add_zero]
    rw [ih hstep a, amountAt_cons, Int.add_assoc]

/-- From an empty delta. -/
theorem Summed.get_empty (h : Summed es Table.empty d) (a : Hash) :
    d.get a = Int64.ofInt (amountAt es a) := by
  have hx : ∀ b : Hash, get (Table.empty : StateDelta Hash) b = Int64.ofInt 0 := fun _ => rfl
  rw [h.get_eq hx a, Int.zero_add]

/-- Any amounts can be added, when no allocation fails. -/
theorem exists_summed (es : List (Hash × Int64)) (d : StateDelta Hash) : ∃ d', Summed es d d' := by
  induction es generalizing d with
  | nil => exact ⟨d, .nil⟩
  | cons e es ih =>
    obtain ⟨m', hadd, -⟩ := addOrSum_of_nil (a := e.1) (v := e.2) (m := ⟨d, []⟩) rfl
    obtain ⟨d', hd'⟩ := ih m'.state
    exact ⟨d', .cons hadd hd'⟩

/-- The loop of `state_delta_apply_patch` is such a list of calls. -/
theorem summed_applyRows
    (h : forEach (fun a v => if v ≠ 0 then addOrSum a v else pure ()) es m = .ok () m') :
    Summed es m.state m'.state := by
  induction es generalizing m with
  | nil =>
    cases h
    exact .nil
  | cons e es ih =>
    obtain ⟨_, m₁, h₁, h₂⟩ := bind_eq_ok.mp h
    have hadd : addOrSum e.1 e.2 m = .ok () m₁ := by
      by_cases hv : e.2 = 0
      · -- the loop passes over a zero, which the call would ignore
        simp only [hv, ne_eq, not_true_eq_false, if_false] at h₁
        rw [addOrSum, if_pos hv]
        exact h₁
      · simpa only [ne_eq, hv, not_false_eq_true, if_true] using h₁
    exact .cons hadd (ih h₂)

/-- **The sums over a list of amounts are exact**: each word that the additions
leave on the way, and each word of the patch that is made in the end, is the
integer it stands for. -/
structure ExactSums (latest : StateDelta Hash) (amounts : List (Hash × Int64)) : Prop where
  delta : ∀ {es more : List (Hash × Int64)} {d : StateDelta Hash}, amounts = es ++ more →
    Summed es Table.empty d → ∀ a, (d.get a).toInt = amountAt es a
  patch : ∀ {d : StateDelta Hash}, Summed amounts Table.empty d → ∀ e ∈ d.rows,
    (latest.get e.1 + e.2).toInt = (latest.get e.1).toInt + amountAt amounts e.1

/-- Each word on its own is exact when its sum fits. -/
theorem Summed.exact_iff (h : Summed es Table.empty d) (a : Hash) :
    (d.get a).toInt = amountAt es a ↔ Word.Fits (amountAt es a) := by
  rw [h.get_empty a, Word.toInt_ofInt_iff]

/-- An entry of the patch is exact when the balance it stands for fits. -/
theorem Summed.patch_exact_iff (h : Summed es Table.empty d) {e : Hash × Int64}
    (he : e ∈ d.rows) :
    (latest.get e.1 + e.2).toInt = (latest.get e.1).toInt + amountAt es e.1 ↔
      Word.Fits ((latest.get e.1).toInt + amountAt es e.1) := by
  rw [← get_of_mem he, h.get_empty, Word.word_add_ofInt, Word.toInt_ofInt_iff]

/-- Where the sums and the patch are exact, the balances fit: an address without an
entry has come to zero. -/
theorem Summed.fits_of_patch (h : Summed es Table.empty d)
    (hd : ∀ a, (d.get a).toInt = amountAt es a)
    (hp : ∀ e ∈ d.rows, (latest.get e.1 + e.2).toInt =
      (latest.get e.1).toInt + amountAt es e.1) (a : Hash) :
    Word.Fits ((latest.get a).toInt + amountAt es a) := by
  by_cases ha : a ∈ d.keys
  · obtain ⟨e, he⟩ := Table.mem_keys_iff.mp ha
    have hmem := Table.mem_of_find? he
    have hea : e.1 = a := Table.key_of_find? he
    subst hea
    exact (h.patch_exact_iff hmem).mp (hp e hmem)
  · have hexact := hd a
    rw [get_of_not_mem ha] at hexact
    have hzero : amountAt es a = 0 := hexact.symm
    rw [hzero, Int.add_zero]
    exact Word.fits_toInt _

/-- **When the sums over one list of amounts are exact.** -/
theorem exactSums_iff {amounts : List (Hash × Int64)} : ExactSums latest amounts ↔
    (∀ es more, amounts = es ++ more → ∀ a, Word.Fits (amountAt es a)) ∧
      ∀ a, Word.Fits ((latest.get a).toInt + amountAt amounts a) := by
  constructor
  · intro h
    constructor
    · intro es more heq a
      obtain ⟨d, hd⟩ := exists_summed es (Table.empty : StateDelta Hash)
      exact (hd.exact_iff a).mp (h.delta heq hd a)
    · intro a
      obtain ⟨d, hd⟩ := exists_summed amounts (Table.empty : StateDelta Hash)
      exact hd.fits_of_patch (h.delta (List.append_nil _).symm hd) (h.patch hd) a
  · rintro ⟨hdelta, hpatch⟩
    exact ⟨fun heq hd a => (hd.exact_iff a).mpr (hdelta _ _ heq a),
      fun hd e he => (hd.patch_exact_iff he).mpr (hpatch e.1)⟩

theorem amountAt_of_not_mem (h : a ∉ es.map Prod.fst) : amountAt es a = 0 := by
  refine List.sum_eq_zero fun z hz => ?_
  obtain ⟨e, he, rfl⟩ := List.mem_map.mp hz
  refine if_neg fun hea => h ?_
  exact List.mem_map.mpr ⟨e, he, hea⟩

/-- The first entries of a delta give an address its whole value or nothing. -/
theorem amountAt_first {p : StateDelta Hash} (h : p.rows = es ++ more) (a : Hash) :
    amountAt es a = 0 ∨ amountAt es a = (get p a).toInt := by
  have hnd : (es.map Prod.fst ++ more.map Prod.fst).Nodup := by
    rw [← List.map_append, ← h]
    exact p.nodup
  by_cases ha : a ∈ es.map Prod.fst
  · right
    have hmore : amountAt more a = 0 :=
      amountAt_of_not_mem fun hm => (List.nodup_append.mp hnd).2.2 a ha a hm rfl
    rw [← amountAt_rows, h, amountAt_append, hmore, Int.add_zero]
  · exact .inl (amountAt_of_not_mem ha)

end StateDelta

namespace Ledger

open StateDelta

variable [HashBytes Hash] {txs : Rows Hash} {index : ℕ} {cone : Finset Hash}
  {latest running : StateDelta Hash} {order : List Hash} {h a : Hash}

/-- The address and the value of a transaction. -/
def amount (tx : Transaction Hash) : Hash × Int64 := (tx.address, tx.value)

/-- What a round of `get_latest_delta` adds: the transactions of the bundle of an
unconfirmed tail, and nothing elsewhere. -/
def amounts (txs : Rows Hash) (index : ℕ) (h : Hash) : List (Hash × Int64) :=
  match txs.find? h with
  | none => []
  | some tx =>
    if unconfirmed index tx ∧ tx.currentIndex = 0 then (bundleOf txs h).map amount else []

/-- Everything a call adds that visits the cone in this order: the bundles, and
after them the running delta. -/
def journal (txs : Rows Hash) (index : ℕ) (order : List Hash) (running : StateDelta Hash) :
    List (Hash × Int64) :=
  order.flatMap (amounts txs index) ++ running.rows

/-- **No sum leaves the word, in whatever order the bundles come.** While a bundle
is added, the others that count are those that pull an address the same way;
after the cone come the running delta and the balance. -/
structure SumsBounded (txs : Rows Hash) (index : ℕ) (cone : Finset Hash)
    (latest running : StateDelta Hash) : Prop where
  above : ∀ h ∈ cone, ∀ es more, amounts txs index h = es ++ more → ∀ a,
    (∑ x ∈ cone.erase h, max (change txs index x a) 0) + amountAt es a < 2 ^ 63
  below : ∀ h ∈ cone, ∀ es more, amounts txs index h = es ++ more → ∀ a,
    -2 ^ 63 ≤ (∑ x ∈ cone.erase h, min (change txs index x a) 0) + amountAt es a
  applied : ∀ a, Word.Fits ((∑ x ∈ cone, change txs index x a) + (running.get a).toInt)
  balance : ∀ a, Word.Fits ((latest.get a).toInt +
    ((∑ x ∈ cone, change txs index x a) + (running.get a).toInt))

omit [HashBytes Hash] in
theorem amountAt_map_amount (b : List (Transaction Hash)) (a : Hash) :
    amountAt (b.map amount) a = valueAt b a := by
  rw [amountAt, valueAt, List.map_map]
  rfl

omit [HashBytes Hash] in
theorem amountAt_amounts (txs : Rows Hash) (index : ℕ) (h a : Hash) :
    amountAt (amounts txs index h) a = change txs index h a := by
  unfold amounts change
  cases txs.find? h with
  | none => rfl
  | some tx =>
    dsimp only
    split
    · exact amountAt_map_amount _ a
    · rfl

omit [HashBytes Hash] in
/-- What the bundles of some hashes add up to. -/
theorem amountAt_bundles (order : List Hash) (a : Hash) :
    amountAt (order.flatMap (amounts txs index)) a = (order.map (change txs index · a)).sum := by
  rw [amountAt_flatMap]
  simp only [amountAt_amounts]

omit [HashBytes Hash] in
theorem amountAt_journal (ho : Enumerates order cone) (a : Hash) :
    amountAt (journal txs index order running) a =
      (∑ x ∈ cone, change txs index x a) + (running.get a).toInt := by
  rw [journal, amountAt_append, amountAt_bundles, ho.sum_eq, amountAt_rows]

omit [HashBytes Hash] in
/-- Under the bounds the net change itself fits. -/
theorem SumsBounded.net (hb : SumsBounded txs index cone latest running) (a : Hash) :
    Word.Fits (∑ x ∈ cone, change txs index x a) := by
  rcases cone.eq_empty_or_nonempty with rfl | ⟨h, hmem⟩
  · exact ⟨by norm_num, by norm_num⟩
  · have hup := hb.above h hmem _ [] (List.append_nil _).symm a
    have hlow := hb.below h hmem _ [] (List.append_nil _).symm a
    rw [amountAt_amounts] at hup hlow
    have hsplit := Finset.sum_erase_add cone (fun x => change txs index x a) hmem
    have hmax := Finset.sum_le_sum fun x (_ : x ∈ cone.erase h) =>
      le_max_left (change txs index x a) 0
    have hmin := Finset.sum_le_sum fun x (_ : x ∈ cone.erase h) =>
      min_le_left (change txs index x a) 0
    constructor
    · omega
    · omega

omit [HashBytes Hash] in
/-- **Under the bounds the sums of every order are exact.** -/
theorem SumsBounded.exactSums (hb : SumsBounded txs index cone latest running)
    (ho : Enumerates order cone) : ExactSums latest (journal txs index order running) := by
  refine exactSums_iff.mpr ⟨fun es more heq a => ?_, fun a => ?_⟩
  · rcases List.append_eq_append_iff.mp heq with ⟨e₁, rfl, hrows⟩ | ⟨c, hc, -⟩
    · -- the cone is through, and the running delta is being added
      rw [amountAt_append, amountAt_bundles, ho.sum_eq]
      rcases amountAt_first hrows a with h0 | h0
      · rw [h0, Int.add_zero]
        exact hb.net a
      · rw [h0]
        exact hb.applied a
    · rcases flatMap_eq_append hc with ⟨done, h, rest, e₁, e₂, rfl, hx, rfl⟩ | rfl
      · -- the bundle of `h` is being added, after those of `done`
        have hmem : h ∈ cone := (ho.mem_iff h).mp (by simp)
        have hup := hb.above h hmem e₁ e₂ hx a
        have hlow := hb.below h hmem e₁ e₂ hx a
        have hle := (forall_before_le_iff (f := fun x => change txs index x a) hmem).mpr
          le_rfl done rest ho
        have hge := (forall_le_before_iff (f := fun x => change txs index x a) hmem).mpr
          le_rfl done rest ho
        rw [amountAt_append, amountAt_bundles]
        constructor
        · omega
        · omega
      · rw [amountAt_bundles, ho.sum_eq]
        exact hb.net a
  · rw [amountAt_journal ho]
    exact hb.balance a

omit [HashBytes Hash] in
/-- **When the sums of a cone are exact in every order.** -/
theorem forall_orders_exactSums_iff :
    (∀ order, Enumerates order cone → ExactSums latest (journal txs index order running)) ↔
      SumsBounded txs index cone latest running := by
  refine ⟨fun hall => ?_, fun hb order ho => hb.exactSums ho⟩
  -- while the bundle of `h` is added, whatever came before it fits
  have hfits : ∀ h es more, amounts txs index h = es ++ more → ∀ a done rest,
      Enumerates (done ++ h :: rest) cone →
        Word.Fits ((done.map (change txs index · a)).sum + amountAt es a) := by
    intro h es more hx a done rest ho
    have hpre := (exactSums_iff.mp (hall _ ho)).1 (done.flatMap (amounts txs index) ++ es)
      (more ++ rest.flatMap (amounts txs index) ++ running.rows) (by simp [journal, hx]) a
    rwa [amountAt_append, amountAt_bundles] at hpre
  have hlist : Enumerates cone.toList cone := ⟨cone.nodup_toList, fun x => Finset.mem_toList⟩
  have hwhole := exactSums_iff.mp (hall _ hlist)
  refine ⟨fun h hmem es more hx a => ?_, fun h hmem es more hx a => ?_, fun a => ?_, fun a => ?_⟩
  · have hle := (forall_before_le_iff (f := fun x => change txs index x a)
      (c := 2 ^ 63 - 1 - amountAt es a) hmem).mp fun done rest ho => by
        have := (hfits h es more hx a done rest ho).2
        omega
    omega
  · have hge := (forall_le_before_iff (f := fun x => change txs index x a)
      (c := -2 ^ 63 - amountAt es a) hmem).mp fun done rest ho => by
        have := (hfits h es more hx a done rest ho).1
        omega
    omega
  · have := hwhole.1 _ [] (List.append_nil _).symm a
    rwa [amountAt_journal hlist] at this
  · have := hwhole.2 a
    rwa [amountAt_journal hlist] at this

/-! ## Few transactions -/

omit [HashBytes Hash] [DecidableEq Hash] in
/-- Amounts that are bounded add up to no more than their number allows. -/
theorem abs_amountAt_le [DecidableEq Hash] {es : List (Hash × Int64)} {c : ℤ}
    (hc : ∀ e ∈ es, |e.2.toInt| ≤ c) (a : Hash) : |amountAt es a| ≤ es.length * c := by
  induction es with
  | nil => simp
  | cons e es ih =>
    have hhead := hc e List.mem_cons_self
    have htail := ih fun e' he' => hc e' (List.mem_cons_of_mem _ he')
    have hone : |if e.1 = a then e.2.toInt else 0| ≤ c := by
      split
      · exact hhead
      · rw [abs_zero]
        exact (abs_nonneg _).trans hhead
    rw [amountAt_cons, List.length_cons]
    calc |(if e.1 = a then e.2.toInt else 0) + amountAt es a|
        ≤ |if e.1 = a then e.2.toInt else 0| + |amountAt es a| := abs_add_le _ _
      _ ≤ c + es.length * c := add_le_add hone htail
      _ = ((es.length + 1 : ℕ) : ℤ) * c := by push_cast; ring

omit [HashBytes Hash] in
/-- **A cone with few transactions is safe**: two more of the largest amount, for the
running delta and the balance, still fit. -/
theorem sumsBounded_of_count {c : ℤ}
    (hc : ∀ h ∈ cone, ∀ e ∈ amounts txs index h, |e.2.toInt| ≤ c)
    (hrunning : ∀ a, |(running.get a).toInt| ≤ c) (hlatest : ∀ a, |(latest.get a).toInt| ≤ c)
    (hcount : ((∑ h ∈ cone, (amounts txs index h).length : ℕ) + 2) * c < 2 ^ 63) :
    SumsBounded txs index cone latest running := by
  have hchange : ∀ x ∈ cone, ∀ a, |change txs index x a| ≤ (amounts txs index x).length * c := by
    intro x hx a
    rw [← amountAt_amounts]
    exact abs_amountAt_le (hc x hx) a
  have hpart : ∀ h ∈ cone, ∀ es more, amounts txs index h = es ++ more → ∀ a,
      |amountAt es a| ≤ (amounts txs index h).length * c := by
    intro h hmem es more heq a
    have hes : ∀ e ∈ es, |e.2.toInt| ≤ c := fun e he =>
      hc h hmem e (heq ▸ List.mem_append_left _ he)
    refine (abs_amountAt_le hes a).trans ?_
    have hc0 : 0 ≤ c := (abs_nonneg _).trans (hrunning a)
    have hlen : es.length ≤ (amounts txs index h).length := by
      rw [heq, List.length_append]
      exact Nat.le_add_right _ _
    exact mul_le_mul_of_nonneg_right (Int.ofNat_le.mpr hlen) hc0
  have htotal : (∑ x ∈ cone, ((amounts txs index x).length : ℤ) * c) =
      (∑ h ∈ cone, (amounts txs index h).length : ℕ) * c := by
    rw [← Finset.sum_mul]
    push_cast
    rfl
  have hothers : ∀ h ∈ cone, ∀ a x, |x| ≤ ((amounts txs index h).length : ℤ) * c →
      (∑ x ∈ cone.erase h, max (change txs index x a) 0) + x ≤
        (∑ h ∈ cone, (amounts txs index h).length : ℕ) * c ∧
      -((∑ h ∈ cone, (amounts txs index h).length : ℕ) * c) ≤
        (∑ x ∈ cone.erase h, min (change txs index x a) 0) + x := by
    intro h hmem a x hx
    -- the others and one bundle together stay below the count
    have hsplit := Finset.sum_erase_add cone
      (fun x => ((amounts txs index x).length : ℤ) * c) hmem
    rw [htotal] at hsplit
    have hrest : ∀ y ∈ cone.erase h, |change txs index y a| ≤
        ((amounts txs index y).length : ℤ) * c :=
      fun y hy => hchange y (Finset.mem_of_mem_erase hy) a
    have hmax := sum_max_le hrest
    have hmin := neg_sum_le_sum_min hrest
    have hxle := abs_le.mp hx
    constructor
    · omega
    · omega
  have hnet : ∀ a, |∑ x ∈ cone, change txs index x a| ≤
      (∑ h ∈ cone, (amounts txs index h).length : ℕ) * c := by
    intro a
    calc |∑ x ∈ cone, change txs index x a|
        ≤ ∑ x ∈ cone, |change txs index x a| := Finset.abs_sum_le_sum_abs _ _
      _ ≤ ∑ x ∈ cone, ((amounts txs index x).length : ℤ) * c :=
          Finset.sum_le_sum fun x hx => hchange x hx a
      _ = _ := htotal
  rw [add_mul] at hcount
  have hc0 : ∀ a, 0 ≤ c := fun a => (abs_nonneg _).trans (hrunning a)
  refine ⟨fun h hmem es more heq a => ?_, fun h hmem es more heq a => ?_, fun a => ?_, fun a => ?_⟩
  · have hup := (hothers h hmem a _ (hpart h hmem es more heq a)).1
    have := hc0 a
    omega
  · have hlow := (hothers h hmem a _ (hpart h hmem es more heq a)).2
    have := hc0 a
    omega
  · have hle := abs_le.mp (hnet a)
    have hrun := abs_le.mp (hrunning a)
    constructor
    · omega
    · omega
  · have hle := abs_le.mp (hnet a)
    have hrun := abs_le.mp (hrunning a)
    have hlat := abs_le.mp (hlatest a)
    constructor
    · omega
    · omega

end Ledger

end Entangled
