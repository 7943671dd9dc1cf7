import Entangled.Snapshot.StateText
import Mathlib.Data.Finset.Card
/-!
# Which state files are accepted

`state_delta_deserialize_str` checks the total of what it reads, but adds it up
in an `uint64_t` and per line, where the map keeps the first of two entries of
an address. A number of more than 64 bits is undefined, and an early return
leaves the entries read so far in the delta. `vetted_iff` says for which texts
none of this shows.
-/

namespace Entangled

namespace StateDelta

open Prog Snapshot Ternary Trinary Tokens Decimal

variable {E : Encoding} {text : List Int8} {alloc : List Bool} {c : Retcode}
variable {m m' : Heap (List FlexTrit)} {es : List (List FlexTrit × Int64)}

/-- What an accepted text must be: no address stands in two lines, no balance is negative, and the
balances come to the supply. -/
structure Accepted (E : Encoding) (text : List Int8) (d : StateDelta (List FlexTrit)) : Prop where
  distinct : ((leadingEntries E (records 59 10 text)).map Prod.fst).Nodup
  nonneg : ∀ e ∈ d.rows, 0 ≤ e.2
  total : total d = iotaSupply

/-- **Only sound snapshots are accepted**, and a text that is refused leaves the delta empty. -/
def Vetted (E : Encoding) (text : List Int8) (alloc : List Bool) : Prop :=
  ∃ ret m, deserializeStr E text ⟨Table.empty, alloc⟩ = some (ret, m) ∧
    (ret = .ok () → Accepted E text m.state) ∧ (ret ≠ .ok () → m.state.rows = [])

/-- A text that the reader settles as it should. Either the first entry finds no memory, or all
do, and then: every number is one of 64 bits, and every hash is there; a line that says nothing is
the first; and if the total comes to the supply in 64 bits it does so in full, with no address
twice. -/
def Sound (E : Encoding) (text : List Int8) (alloc : List Bool) : Prop :=
  let rs := records 59 10 text
  let es := leadingEntries E rs
  es ≠ [] ∧ alloc.head? = some true ∨
    true ∉ alloc.take (es.map Prod.fst).toFinset.card ∧ flawOf E rs ≠ some .undefined ∧
      (flawOf E rs = some .malformed → es = []) ∧
      (flawOf E rs = none → (2 ^ 64 : ℤ) ∣ balances es - iotaSupply →
        (es.map Prod.fst).Nodup ∧ balances es = iotaSupply)

/-! ## Memory -/

/-- Entries take an allocation for every address that is new. -/
theorem forEach_add_ok_iff_card (es : List (List FlexTrit × Int64)) :
    (∃ m', forEach add es m = .ok () m') ↔
      true ∉ m.alloc.take ((es.map Prod.fst).toFinset \ m.state.keys.toFinset).card := by
  induction es generalizing m with
  | nil => simp [forEach]
  | cons e es ih =>
    rw [forEach, List.map_cons, List.toFinset_cons]
    by_cases hmem : e.1 ∈ m.state.keys
    · have hadd : add e.1 e.2 m = .ok () m := add_of_mem hmem
      rw [bind_apply_ok hadd, ih, Finset.insert_sdiff_of_mem _ (List.mem_toFinset.mpr hmem)]
    · have hkeys : (m.state.insert e).keys = m.state.keys ++ [e.1] := by
        rw [Table.keys, Table.rows_insert hmem, List.map_append]
        rfl
      have hcard : (insert e.1 (es.map Prod.fst).toFinset \ m.state.keys.toFinset).card =
          ((es.map Prod.fst).toFinset \ (m.state.insert e).keys.toFinset).card + 1 := by
        have hsplit : insert e.1 (es.map Prod.fst).toFinset \ m.state.keys.toFinset =
            insert e.1 ((es.map Prod.fst).toFinset \ (m.state.insert e).keys.toFinset) := by
          ext a
          simp only [hkeys, List.toFinset_append, Finset.mem_sdiff, Finset.mem_insert,
            Finset.mem_union, List.mem_toFinset, List.mem_singleton]
          by_cases ha : a = e.1
          · simp [ha, hmem]
          · simp [ha]
        rw [hsplit, Finset.card_insert_of_notMem (by simp [hkeys])]
      rw [hcard]
      have hadd := add_of_not_mem (v := e.2) hmem
      cases halloc : m.alloc with
      | nil =>
        rw [halloc] at hadd
        have hok : add e.1 e.2 m = .ok () ⟨m.state.insert e, []⟩ := hadd
        rw [bind_apply_ok hok, ih]
        simp
      | cons fails rest =>
        rw [halloc] at hadd
        rw [List.take_succ_cons]
        cases fails with
        | false =>
          have hok : add e.1 e.2 m = .ok () ⟨m.state.insert e, rest⟩ := hadd
          rw [bind_apply_ok hok, ih]
          simp
        | true =>
          have herr : add e.1 e.2 m = .error .oom { m with alloc := rest } := hadd
          rw [bind_apply_error herr]
          simp

/-- Entries that were added stay, also when the next one finds no memory. -/
theorem rows_kept_error (h : forEach add es m = .error c m') :
    m.state.rows <+: m'.state.rows := by
  induction es generalizing m with
  | nil => contradiction
  | cons e es ih =>
    rcases bind_eq_error.mp h with hone | ⟨_, m₁, hone, hrest⟩
    · by_cases hmem : e.1 ∈ m.state.keys
      · rw [add_of_mem hmem] at hone
        contradiction
      · rw [add_of_not_mem hmem] at hone
        split at hone
        · obtain ⟨-, rfl⟩ := EStateM.Result.error.inj hone
          exact List.prefix_rfl
        · contradiction
    · rcases rows_add hone with rfl | hrows
      · exact ih hrest
      · refine List.IsPrefix.trans ?_ (ih hrest)
        rw [hrows]
        exact List.prefix_append _ _

/-- From an empty delta nothing is left of entries that find no memory only where the first one
finds none. -/
theorem rows_nil_iff_head (h : forEach add es ⟨Table.empty, alloc⟩ = .error c m') :
    m'.state.rows = [] ↔ es ≠ [] ∧ alloc.head? = some true := by
  cases es with
  | nil => contradiction
  | cons e es =>
    have hmem : e.1 ∉ (Table.empty : StateDelta (List FlexTrit)).keys := List.not_mem_nil
    have hadd := add_of_not_mem (m := ⟨Table.empty, alloc⟩) (v := e.2) hmem
    by_cases hhead : alloc.head? = some true
    · rw [if_pos hhead] at hadd
      rw [forEach, bind_apply_error hadd] at h
      obtain ⟨-, rfl⟩ := EStateM.Result.error.inj h
      exact ⟨fun _ => ⟨List.cons_ne_nil _ _, hhead⟩, fun _ => rfl⟩
    · rw [if_neg hhead] at hadd
      rw [forEach, bind_apply_ok hadd] at h
      have hkept := rows_kept_error h
      refine ⟨fun hnil => ?_, fun hfirst => absurd hfirst.2 hhead⟩
      rw [hnil] at hkept
      exact absurd (List.prefix_nil.mp hkept) (List.cons_ne_nil _ _)

/-- Nothing is added to an empty delta only where there is nothing to add. -/
theorem rows_nil_iff (h : forEach add es ⟨Table.empty, alloc⟩ = .ok () m') :
    m'.state.rows = [] ↔ es = [] := by
  cases es with
  | nil =>
    obtain ⟨-, rfl⟩ := EStateM.Result.ok.inj h
    exact ⟨fun _ => rfl, fun _ => rfl⟩
  | cons e es =>
    obtain ⟨_, m₁, hone, hrest⟩ := bind_eq_ok.mp h
    have hkept := rows_kept hrest
    have hmem : e.1 ∉ (Table.empty : StateDelta (List FlexTrit)).keys := List.not_mem_nil
    rw [add_ok hmem hone, Table.rows_insert (r := e) hmem] at hkept
    refine ⟨fun hnil => ?_, fun hnil => absurd hnil (List.cons_ne_nil _ _)⟩
    rw [hnil] at hkept
    exact absurd (List.prefix_nil.mp hkept) (by simp)

/-! ## The check -/

/-- Entries that no record says are not negative. -/
theorem leadingEntries_nonneg (rs : List (Record Int8)) :
    ∀ e ∈ leadingEntries E rs, 0 ≤ e.2 := by
  induction rs with
  | nil => simp [leadingEntries]
  | cons r rs ih =>
    rw [leadingEntries]
    rcases hentry : entryOf E r with f | e
    · simp
    · intro e' he'
      rcases List.mem_cons.mp he' with rfl | he'
      · exact (entryOf_ok hentry).choose_spec.choose_spec.2.2.2
      · exact ih e' he'

/-- **What an accepted text must be**, of its lines. -/
theorem accepted_iff
    (hadd : forEach add (leadingEntries E (records 59 10 text)) ⟨Table.empty, alloc⟩ = .ok () m) :
    Accepted E text m.state ↔
      ((leadingEntries E (records 59 10 text)).map Prod.fst).Nodup ∧
        balances (leadingEntries E (records 59 10 text)) = iotaSupply := by
  have hrows : ((leadingEntries E (records 59 10 text)).map Prod.fst).Nodup →
      m.state.rows = leadingEntries E (records 59 10 text) := by
    intro hnd
    have hall := rows_forEach_add (f := Prod.snd) (m := ⟨Table.empty, alloc⟩) hnd hadd
    rw [List.map_id'] at hall
    exact hall
  constructor
  · intro H
    refine ⟨H.distinct, ?_⟩
    rw [← H.total, total, hrows H.distinct]
    rfl
  · rintro ⟨hnd, htotal⟩
    refine ⟨hnd, fun e he => ?_, ?_⟩
    · rw [hrows hnd] at he
      exact leadingEntries_nonneg _ e he
    · rw [← htotal, total, hrows hnd]
      rfl

theorem unsigned_eq_iff {x y : ℤ} :
    UInt64.ofInt x = UInt64.ofInt y ↔ (2 ^ 64 : ℤ) ∣ x - y := by
  have hnat : ∀ z : ℤ, ((UInt64.ofInt z).toNat : ℤ) = z % 2 ^ 64 := by
    intro z
    rw [UInt64.ofInt, UInt64.toNat_ofNat']
    omega
  rw [← UInt64.toNat_inj, ← Int.natCast_inj, hnat, hnat,
    Int.emod_eq_emod_iff_emod_sub_eq_zero, Int.dvd_iff_emod_eq_zero]

/-- What the reader does behind the entries it has added. -/
theorem finish_vetted_iff
    (hadd : forEach add (leadingEntries E (records 59 10 text)) ⟨Table.empty, alloc⟩ = .ok () m)
    (flaw : Option Flaw) :
    (∃ ret m', finish flaw (UInt64.ofInt (balances (leadingEntries E (records 59 10 text)))) m =
        some (ret, m') ∧
      (ret = .ok () → Accepted E text m'.state) ∧ (ret ≠ .ok () → m'.state.rows = [])) ↔
    flaw ≠ some .undefined ∧
      (flaw = some .malformed → leadingEntries E (records 59 10 text) = []) ∧
      (flaw = none → (2 ^ 64 : ℤ) ∣ balances (leadingEntries E (records 59 10 text)) - iotaSupply →
        ((leadingEntries E (records 59 10 text)).map Prod.fst).Nodup ∧
          balances (leadingEntries E (records 59 10 text)) = iotaSupply) := by
  rw [← accepted_iff hadd, ← rows_nil_iff hadd, ← unsigned_eq_iff]
  rcases flaw with _ | _ | _ | _
  · by_cases hsupply : UInt64.ofInt (balances (leadingEntries E (records 59 10 text))) =
        UInt64.ofInt iotaSupply
    · rw [finish, if_neg (not_not.mpr hsupply)]
      simp [hsupply]
    · rw [finish, if_pos hsupply]
      simp [hsupply, destroy, Table.empty]
  · simp [finish]
  · simp [finish]
  · simp [finish, destroy, Table.empty]

/-- **Exactly when a text is settled as it should.** -/
theorem vetted_iff (E : Encoding) (text : List Int8) (alloc : List Bool) :
    Vetted E text alloc ↔ Sound E text alloc := by
  unfold Vetted Sound
  dsimp only
  by_cases hrecords : records 59 10 text = []
  · rw [deserializeStr, hrecords]
    have hsupply : ¬ (2 ^ 64 : ℤ) ∣ 0 - iotaSupply := by decide
    have hsound : (2 ^ 64 : ℤ) ∣ balances (leadingEntries E []) - iotaSupply → False := hsupply
    refine ⟨fun _ => Or.inr ⟨List.not_mem_nil, by simp [flawOf], fun _ => rfl, fun _ h => ?_⟩,
      fun _ => ⟨_, _, rfl, fun h => by simp at h, fun _ => rfl⟩⟩
    exact absurd (hsound h) id
  have hok := forEach_add_ok_iff_card (leadingEntries E (records 59 10 text))
    (m := ⟨Table.empty, alloc⟩)
  have hkeys : (Table.empty : StateDelta (List FlexTrit)).keys.toFinset = ∅ := rfl
  rw [hkeys, Finset.sdiff_empty] at hok
  rw [deserializeStr_eq hrecords]
  rcases hadd : forEach add (leadingEntries E (records 59 10 text)) ⟨Table.empty, alloc⟩ with
    ⟨u, m⟩ | ⟨c, m⟩
  · have hmemory := hok.mp ⟨m, hadd⟩
    have hfirst : ¬ (leadingEntries E (records 59 10 text) ≠ [] ∧ alloc.head? = some true) := by
      rintro ⟨hne, hhead⟩
      obtain ⟨e, es, hes⟩ := List.exists_cons_of_ne_nil hne
      obtain ⟨rest, rfl⟩ := List.head?_eq_some_iff.mp hhead
      have hcard : 0 < ((leadingEntries E (records 59 10 text)).map Prod.fst).toFinset.card := by
        rw [hes, List.map_cons, List.toFinset_cons]
        exact Finset.card_pos.mpr (Finset.insert_nonempty _ _)
      obtain ⟨k, hk⟩ := Nat.exists_eq_add_of_lt hcard
      refine hmemory ?_
      rw [hk, Nat.zero_add, List.take_succ_cons]
      exact List.mem_cons_self
    dsimp only
    rw [finish_vetted_iff hadd]
    exact ⟨fun h => Or.inr ⟨hmemory, h⟩, fun h => (h.resolve_left hfirst).2⟩
  · have hmemory : ¬ true ∉
        alloc.take ((leadingEntries E (records 59 10 text)).map Prod.fst).toFinset.card := by
      intro hmemory
      obtain ⟨m', hm'⟩ := hok.mpr hmemory
      rw [hadd] at hm'
      contradiction
    dsimp only
    constructor
    · rintro ⟨ret, m', heq, -, hleft⟩
      obtain ⟨rfl, rfl⟩ := Prod.mk.inj (Option.some.inj heq)
      exact Or.inl ((rows_nil_iff_head hadd).mp (hleft (by simp)))
    · rintro (hfirst | ⟨h, -⟩)
      · exact ⟨_, _, rfl, fun h => by simp at h, fun _ => (rows_nil_iff_head hadd).mpr hfirst⟩
      · exact absurd h hmemory

/-! ## Texts that are not -/

/-- With memory to spare, a text is settled as it should only where its entries are sound. -/
theorem Vetted.entries (H : Vetted E text []) (hne : leadingEntries E (records 59 10 text) ≠ []) :
    (flawOf E (records 59 10 text) ≠ some .malformed) ∧
      (flawOf E (records 59 10 text) = none →
        (2 ^ 64 : ℤ) ∣ balances (leadingEntries E (records 59 10 text)) - iotaSupply →
        ((leadingEntries E (records 59 10 text)).map Prod.fst).Nodup ∧
          balances (leadingEntries E (records 59 10 text)) = iotaSupply) := by
  have hrecords : records 59 10 text ≠ [] := by
    intro hnil
    rw [hnil] at hne
    exact hne rfl
  obtain ⟨m, hadd⟩ := (forEach_add_ok_iff_card (leadingEntries E (records 59 10 text))
    (m := ⟨Table.empty, []⟩)).mpr (by simp)
  unfold Vetted at H
  rw [deserializeStr_eq hrecords, hadd] at H
  obtain ⟨-, hmalformed, hsupply⟩ := (finish_vetted_iff hadd _).mp H
  exact ⟨fun h => hne (hmalformed h), hsupply⟩

/-- Lines that come to the supply in 64 bits only, or with an address twice, are accepted. -/
theorem not_vetted_lines (hes : ∀ e ∈ es, IsHash E e.1 ∧ 0 ≤ e.2) (hne : es ≠ [])
    (hsupply : (2 ^ 64 : ℤ) ∣ balances es - iotaSupply)
    (hbad : ¬ ((es.map Prod.fst).Nodup ∧ balances es = iotaSupply)) :
    ¬ Vetted E (Snapshot.text E (linesOf es)) [] := by
  intro H
  obtain ⟨hentries, hflaw⟩ := records_linesOf hes
  have hsettled := (H.entries (by rwa [hentries])).2 hflaw
  rw [hentries] at hsettled
  exact hbad (hsettled hsupply)

/-- An address with two lines, where only the first counts in the map. -/
theorem not_vetted_twice {a : List FlexTrit} (ha : IsHash E a) :
    ¬ Vetted E (Snapshot.text E (linesOf [(a, 2779530283277761), (a, 0)])) [] := by
  have hsum : balances [(a, 2779530283277761), (a, 0)] = iotaSupply :=
    (by decide : (2779530283277761 : Int64).toInt + ((0 : Int64).toInt + 0) = iotaSupply)
  refine not_vetted_lines (fun e he => ?_) (List.cons_ne_nil _ _) ?_ ?_
  · rcases List.mem_pair.mp he with rfl | rfl
    · exact ⟨ha, (by decide : (0 : Int64) ≤ 2779530283277761)⟩
    · exact ⟨ha, (by decide : (0 : Int64) ≤ 0)⟩
  · rw [hsum, Int.sub_self]
    exact dvd_zero _
  · rintro ⟨hnd, -⟩
    simp at hnd

/-- Balances that come to the supply and `2 ^ 64` more. -/
theorem not_vetted_wrapped {a b c : List FlexTrit} (ha : IsHash E a) (hb : IsHash E b)
    (hc : IsHash E c) :
    ¬ Vetted E (Snapshot.text E (linesOf [(a, Int64.maxValue), (b, Int64.maxValue),
      (c, 2779530283277763)])) [] := by
  have hsum : balances [(a, Int64.maxValue), (b, Int64.maxValue), (c, 2779530283277763)] =
      iotaSupply + 2 ^ 64 :=
    (by decide : Int64.maxValue.toInt + (Int64.maxValue.toInt +
      ((2779530283277763 : Int64).toInt + 0)) = iotaSupply + 2 ^ 64)
  refine not_vetted_lines (fun e he => ?_) (List.cons_ne_nil _ _) ?_ ?_
  · simp only [List.mem_cons, List.not_mem_nil, or_false] at he
    rcases he with rfl | rfl | rfl
    · exact ⟨ha, (by decide : (0 : Int64) ≤ Int64.maxValue)⟩
    · exact ⟨hb, (by decide : (0 : Int64) ≤ Int64.maxValue)⟩
    · exact ⟨hc, (by decide : (0 : Int64) ≤ 2779530283277763)⟩
  · rw [hsum, add_sub_cancel_left]
  · rintro ⟨-, htotal⟩
    rw [hsum] at htotal
    omega

/-- A line that says nothing, behind one that does, leaves the entry of the first in the delta. -/
theorem not_vetted_behind {a : List FlexTrit} {v : Int64} (ha : IsHash E a) (hv : 0 ≤ v) :
    ¬ Vetted E (line E a (printInt64 v) ++ line E a [120]) [] := by
  intro H
  have hdigits : 10 ∉ printInt64 v ∧ printInt64 v ≠ [] := by
    rw [(printInt64_of_nonneg hv).2]
    exact ⟨(decimal_not_mem _).1, decimal_ne_nil _⟩
  have hlast : records 59 10 (line E a [120] ++ []) = recordOf E a [120] [] :: records 59 10 [] :=
    records_line ha [] (by decide) (by decide)
  rw [List.append_nil] at hlast
  have hrecords := records_line ha (line E a [120]) hdigits.1 hdigits.2
  rw [hlast] at hrecords
  have hentry : entryOf E (recordOf E a (printInt64 v) (line E a [120])) = .ok (a, v) :=
    entryOf_recordOf (e := (a, v)) ha hv
  have hscan : scanInt64 [120] = some none := by decide
  have hflaw : entryOf E (recordOf E a [120] []) = .error .malformed := by
    rw [entryOf, readTrytes_recordOf ha]
    simp only [recordOf, hscan]
  have hsettled := H.entries (by rw [hrecords, leadingEntries, hentry]; exact List.cons_ne_nil _ _)
  refine hsettled.1 ?_
  rw [hrecords, flawOf, hentry, flawOf, hflaw]

/-- The hash of one trit, repeated. -/
theorem isHash_replicate {t : ℤ} (ht : IsTrit t) : IsHash E (pack E (List.replicate 243 t)) := by
  refine isHash_pack (fun x hx => ?_) List.length_replicate
  rw [List.eq_of_mem_replicate hx]
  exact ht

/-- **Unsound snapshots pass**: an address with two lines, and balances that wrap the total. And a
line without a number behind one with leaves an entry. -/
theorem unsound_settled :
    ¬ Vetted .three (Snapshot.text .three (linesOf [(pack .three (List.replicate 243 0),
      2779530283277761), (pack .three (List.replicate 243 0), 0)])) [] ∧
    ¬ Vetted .three (Snapshot.text .three (linesOf [(pack .three (List.replicate 243 0),
      Int64.maxValue), (pack .three (List.replicate 243 1), Int64.maxValue),
      (pack .three (List.replicate 243 (-1)), 2779530283277763)])) [] ∧
    ¬ Vetted .three (line .three (pack .three (List.replicate 243 0)) (printInt64 1) ++
      line .three (pack .three (List.replicate 243 0)) [120]) [] :=
  ⟨not_vetted_twice (isHash_replicate (by decide)),
    not_vetted_wrapped (isHash_replicate (by decide)) (isHash_replicate (by decide))
      (isHash_replicate (by decide)),
    not_vetted_behind (isHash_replicate (by decide)) (by decide)⟩

end StateDelta

end Entangled
