import Mathlib.Algebra.BigOperators.Finprod
/-!
# Keyed tables

A `Table key` is a list of rows in insertion order, no two with one key: an
SQL table with a primary key, or a hash map that iterates in the order of
insertion. The operations are those both offer: look a key up, insert unless
the key is taken, update rows in place, delete rows.
-/

namespace Entangled

/-- Rows in insertion order, no two with the same key. -/
structure Table {ρ κ : Type*} (key : ρ → κ) where
  rows : List ρ
  nodup : (rows.map key).Nodup

namespace Table

variable {ρ κ : Type*} {key : ρ → κ} [DecidableEq κ]

/-- The table without rows. -/
def empty : Table key := ⟨[], List.nodup_nil⟩

/-- The row stored under a key. -/
def find? (t : Table key) (k : κ) : Option ρ := t.rows.find? (fun r => decide (key r = k))

/-- The keys, in insertion order. -/
def keys (t : Table key) : List κ := t.rows.map key

/-- Append a row unless its key is taken. -/
def insert (t : Table key) (r : ρ) : Table key :=
  if h : key r ∈ t.keys then t
  else ⟨t.rows ++ [r], by
    have ht := t.nodup
    rw [List.map_append, List.nodup_append]
    refine ⟨ht, List.nodup_singleton _, ?_⟩
    intro a ha b hb hab
    rw [List.map_singleton, List.mem_singleton] at hb
    exact h (hb ▸ hab ▸ ha)⟩

/-- Rewrite rows in place, each to a row with the same key. -/
def update (t : Table key) (f : ρ → ρ) (hf : ∀ r, key (f r) = key r) : Table key :=
  ⟨t.rows.map f, by
    have : key ∘ f = key := funext hf
    rw [List.map_map, this]
    exact t.nodup⟩

/-- Delete the rows that satisfy a predicate. -/
def delete (t : Table key) (p : ρ → Bool) : Table key :=
  ⟨t.rows.filter (fun r => !p r), t.nodup.sublist (List.filter_sublist.map key)⟩

variable {t : Table key} {k : κ} {r : ρ}

theorem mem_of_find? (h : t.find? k = some r) : r ∈ t.rows := List.mem_of_find?_eq_some h

theorem key_of_find? (h : t.find? k = some r) : key r = k := by
  simpa using List.find?_some h

theorem find?_key (h : r ∈ t.rows) : t.find? (key r) = some r := by
  cases hf : t.find? (key r) with
  | none =>
    have := List.find?_eq_none.mp hf r h
    simp at this
  | some r' =>
    exact congrArg some (List.inj_on_of_nodup_map t.nodup (mem_of_find? hf) h (key_of_find? hf))

theorem find?_eq_some_iff : t.find? k = some r ↔ r ∈ t.rows ∧ key r = k := by
  constructor
  · exact fun h => ⟨mem_of_find? h, key_of_find? h⟩
  · rintro ⟨hm, rfl⟩
    exact find?_key hm

theorem find?_eq_none_iff : t.find? k = none ↔ k ∉ t.keys := by
  unfold find? keys
  rw [List.find?_eq_none, List.mem_map]
  simp

theorem mem_keys_iff : k ∈ t.keys ↔ ∃ r, t.find? k = some r := by
  cases h : t.find? k with
  | none => simp [find?_eq_none_iff.mp h]
  | some r =>
    refine iff_of_true ?_ ⟨r, rfl⟩
    exact List.mem_map.mpr ⟨r, mem_of_find? h, key_of_find? h⟩

@[simp] theorem find?_empty : (empty : Table key).find? k = none := rfl

omit [DecidableEq κ] in
@[ext] theorem ext {t u : Table key} (h : t.rows = u.rows) : t = u := by
  cases t; cases u; simp only [mk.injEq]; exact h

theorem insert_of_mem (h : key r ∈ t.keys) : t.insert r = t := by
  unfold insert; rw [dif_pos h]

theorem rows_insert (h : key r ∉ t.keys) : (t.insert r).rows = t.rows ++ [r] := by
  unfold insert; rw [dif_neg h]

theorem find?_insert (h : key r ∉ t.keys) :
    (t.insert r).find? k = if key r = k then some r else t.find? k := by
  unfold find?
  rw [rows_insert h, List.find?_append]
  by_cases hk : key r = k
  · have : t.find? k = none := find?_eq_none_iff.mpr (hk ▸ h)
    rw [find?] at this
    rw [this, if_pos hk]
    simp [hk]
  · rw [if_neg hk]
    simp [hk]

theorem mem_keys_insert : k ∈ (t.insert r).keys ↔ k ∈ t.keys ∨ k = key r := by
  by_cases hr : key r ∈ t.keys
  · rw [insert_of_mem hr]
    exact ⟨.inl, fun h => h.elim id fun he => he ▸ hr⟩
  · rw [keys, rows_insert hr, List.map_append, List.mem_append, ← keys]
    simp

theorem find?_update {f : ρ → ρ} {hf : ∀ r, key (f r) = key r} :
    (t.update f hf).find? k = (t.find? k).map f := by
  unfold find? update
  rw [List.find?_map]
  congr 2
  funext r
  simp [hf]

omit [DecidableEq κ] in
theorem keys_update {f : ρ → ρ} {hf : ∀ r, key (f r) = key r} :
    (t.update f hf).keys = t.keys := by
  unfold keys update
  rw [List.map_map]
  exact congrArg (fun g => t.rows.map g) (funext hf)

omit [DecidableEq κ] in
theorem mem_update {f : ρ → ρ} {hf : ∀ r, key (f r) = key r} :
    r ∈ (t.update f hf).rows ↔ ∃ r' ∈ t.rows, f r' = r := List.mem_map

omit [DecidableEq κ] in
theorem mem_delete {p : ρ → Bool} : r ∈ (t.delete p).rows ↔ r ∈ t.rows ∧ p r = false := by
  simp [delete]

theorem find?_delete {p : ρ → Bool} :
    (t.delete p).find? k = (t.find? k).filter (fun r => !p r) := by
  cases h : t.find? k with
  | none =>
    have hk := find?_eq_none_iff.mp h
    rw [Option.filter_none, find?_eq_none_iff]
    intro hk'
    obtain ⟨r, hr, rfl⟩ := List.mem_map.mp hk'
    exact hk (List.mem_map.mpr ⟨r, (mem_delete.mp hr).1, rfl⟩)
  | some r =>
    obtain ⟨hr, rfl⟩ := find?_eq_some_iff.mp h
    cases hp : p r with
    | false =>
      rw [Option.filter_some_pos (by simp [hp])]
      exact find?_key (mem_delete.mpr ⟨hr, hp⟩)
    | true =>
      rw [Option.filter_some_neg (by simp [hp]), find?_eq_none_iff]
      intro hk
      obtain ⟨r', hr', hkey⟩ := List.mem_map.mp hk
      have hmem := mem_delete.mp hr'
      have : r' = r := List.inj_on_of_nodup_map t.nodup hmem.1 hr hkey
      rw [this, hp] at hmem
      exact Bool.noConfusion hmem.2

/-- **Adding over the rows is adding over the keys.** The rows have distinct
keys, so a sum along the list is the sum of a function of finite support. -/
theorem sum_rows_eq_finsum {M : Type*} [AddCommMonoid M] (t : Table key) (f : ρ → M) :
    (t.rows.map f).sum = ∑ᶠ k, ((t.find? k).map f).getD 0 := by
  classical
  have hsupp : (Function.support fun k => ((t.find? k).map f).getD 0) ⊆ ↑t.keys.toFinset := by
    intro k hk
    by_contra hn
    have hn' : k ∉ t.keys := by simpa using hn
    simp [find?_eq_none_iff.mpr hn'] at hk
  rw [finsum_eq_sum_of_support_subset _ hsupp, keys, List.sum_toFinset _ t.nodup, List.map_map]
  congr 1
  refine List.map_congr_left fun r hr => ?_
  simp [find?_key hr]

end Table

end Entangled
