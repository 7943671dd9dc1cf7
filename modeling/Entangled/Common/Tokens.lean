import Mathlib.Data.List.TakeWhile
import Mathlib.Algebra.BigOperators.Group.List.Basic
import Mathlib.Algebra.Ring.Nat
/-!
# Tokens

`strtok` cuts a token off a text: the separators in front of it are skipped, and
it runs to the next separator or to the end. Called with two separators in turn
it cuts a text into records, a key and the value behind it.
-/

namespace Entangled

namespace Tokens

variable {α : Type*}

/-- Up to a boundary all is taken, and nothing behind it. -/
theorem span_of_boundary {p : α → Bool} (front rest : List α) (hfront : ∀ c ∈ front, p c = true)
    (hrest : ∀ c ∈ rest.head?, p c = false) :
    (front ++ rest).takeWhile p = front ∧ (front ++ rest).dropWhile p = rest := by
  rw [List.takeWhile_append_of_pos hfront, List.dropWhile_append_of_pos hfront]
  cases rest with
  | nil => simp
  | cons c rest =>
    have hc : p c = false := hrest c rfl
    simp [hc]

variable [DecidableEq α] {d e : α} {key value s rest : List α} {behind : Option (List α)}

/-- `strtok`: the token, and what is behind the separator that ends it, if one does. -/
def strtok (d : α) (s : List α) : Option (List α × Option (List α)) :=
  let s := s.dropWhile (· == d)
  if s = [] then none else some (s.takeWhile (· != d), (s.dropWhile (· != d)).tail?)

/-- A record: the key, what is behind it in the text, and the value, if there is one. -/
structure Record (α : Type*) where
  key : List α
  behind : Option (List α)
  value : Option (List α)
  deriving DecidableEq

/-- The next so many records. -/
def recordsLoop (d e : α) : ℕ → List α → List (Record α)
  | 0, _ => []
  | fuel + 1, s =>
    match strtok d s with
    | none => []
    | some (key, behind) =>
      match strtok e (behind.getD []) with
      | none => [⟨key, behind, none⟩]
      | some (value, rest) => ⟨key, behind, some value⟩ :: recordsLoop d e fuel (rest.getD [])

/-- The records of a text, keys up to `d` and values up to `e`. -/
def records (d e : α) (s : List α) : List (Record α) := recordsLoop d e s.length s

/-! ## Cutting -/

theorem strtok_nil (d : α) : strtok d [] = none := rfl

/-- A token that a separator ends. -/
theorem strtok_append (hkey : d ∉ key) (h0 : key ≠ []) :
    strtok d (key ++ d :: rest) = some (key, some rest) := by
  obtain ⟨c, cs, rfl⟩ := List.exists_cons_of_ne_nil h0
  have hc : ¬ c = d := fun h => hkey (h ▸ List.mem_cons_self)
  obtain ⟨htake, hdrop⟩ := span_of_boundary (p := (· != d)) (c :: cs) (d :: rest)
    (fun x hx => bne_iff_ne.mpr fun h => hkey (h ▸ hx)) (by simp)
  have hfront : ((c :: cs) ++ d :: rest).dropWhile (· == d) = (c :: cs) ++ d :: rest :=
    List.dropWhile_cons_of_neg (by simpa using hc)
  simp only [strtok, hfront, htake, hdrop]
  rw [if_neg (by simp), List.tail?_cons]

/-- A token that runs to the end. -/
theorem strtok_end (hkey : d ∉ key) (h0 : key ≠ []) : strtok d key = some (key, none) := by
  obtain ⟨c, cs, rfl⟩ := List.exists_cons_of_ne_nil h0
  have hc : ¬ c = d := fun h => hkey (h ▸ List.mem_cons_self)
  obtain ⟨htake, hdrop⟩ := span_of_boundary (p := (· != d)) (c :: cs) []
    (fun x hx => bne_iff_ne.mpr fun h => hkey (h ▸ hx)) (by simp)
  rw [List.append_nil] at htake hdrop
  have hfront : (c :: cs).dropWhile (· == d) = c :: cs :=
    List.dropWhile_cons_of_neg (by simpa using hc)
  simp only [strtok, hfront, htake, hdrop]
  rw [if_neg (List.cons_ne_nil c cs), List.tail?_nil]

/-- What is cut is of the text. -/
theorem strtok_length (h : strtok d s = some (key, behind)) :
    key ≠ [] ∧ key.length + (behind.elim 0 fun rest => rest.length + 1) ≤ s.length := by
  unfold strtok at h
  dsimp only at h
  split at h
  · contradiction
  · next h0 =>
    obtain ⟨hkey, hbehind⟩ := Prod.mk.inj (Option.some.inj h)
    have hspace := (List.dropWhile_sublist (· == d) (l := s)).length_le
    have hsplit := congrArg List.length
      (List.takeWhile_append_dropWhile (p := (· != d)) (l := s.dropWhile (· == d)))
    rw [List.length_append, hkey] at hsplit
    refine ⟨?_, ?_⟩
    · rintro rfl
      have hhead := List.dropWhile_get_zero_not (· == d) s (List.length_pos_of_ne_nil h0)
      rw [List.takeWhile_eq_nil_iff] at hkey
      have := hkey (List.length_pos_of_ne_nil h0)
      simp_all
    · rw [← hbehind]
      cases hrest : (s.dropWhile (· == d)).dropWhile (· != d) with
      | nil =>
        rw [hrest] at hsplit
        simp only [List.tail?_nil, Option.elim_none, List.length_nil] at hsplit ⊢
        omega
      | cons c rest =>
        rw [hrest] at hsplit
        simp only [List.tail?_cons, Option.elim_some, List.length_cons] at hsplit ⊢
        omega

/-! ## Records -/

/-- What is left behind a record is shorter than the text. -/
theorem length_rest_lt (hkey : strtok d s = some (key, behind))
    (hvalue : strtok e (behind.getD []) = some (value, some rest)) :
    key.length + value.length + 2 + rest.length ≤ s.length := by
  have hk := (strtok_length hkey).2
  have hv := (strtok_length hvalue).2
  cases behind with
  | none => simp [strtok_nil] at hvalue
  | some text =>
    simp only [Option.elim_some, Option.getD_some] at hk hv
    omega

/-- Any fuel will do that is not less than the text is long. -/
theorem recordsLoop_congr {m n : ℕ} (hm : s.length ≤ m) (hn : s.length ≤ n) :
    recordsLoop d e m s = recordsLoop d e n s := by
  induction m generalizing n s with
  | zero =>
    rw [List.length_eq_zero_iff.mp (Nat.le_zero.mp hm)]
    cases n with
    | zero => rfl
    | succ n => rfl
  | succ m ih =>
    cases n with
    | zero =>
      rw [List.length_eq_zero_iff.mp (Nat.le_zero.mp hn)]
      rfl
    | succ n =>
      rw [recordsLoop, recordsLoop]
      rcases hkey : strtok d s with _ | ⟨key, behind⟩
      · rfl
      · dsimp only
        rcases hvalue : strtok e (behind.getD []) with _ | ⟨value, rest⟩
        · rfl
        · dsimp only
          rw [ih]
          all_goals
            cases rest with
            | none => exact Nat.zero_le _
            | some rest =>
              have := length_rest_lt hkey hvalue
              simp only [Option.getD_some]
              omega

/-- **The first record**, and the records behind it. -/
theorem records_cons (hkey : strtok d s = some (key, behind))
    (hvalue : strtok e (behind.getD []) = some (value, some rest)) :
    records d e s = ⟨key, behind, some value⟩ :: records d e rest := by
  have hlen := length_rest_lt hkey hvalue
  obtain ⟨n, hn⟩ := Nat.exists_eq_add_of_lt (show 0 < s.length by omega)
  rw [records, hn, Nat.zero_add, recordsLoop, hkey]
  dsimp only
  rw [hvalue]
  dsimp only
  rw [Option.getD_some, records, recordsLoop_congr (n := rest.length) (by omega) le_rfl]

/-- A record that ends with its key. -/
theorem records_key (hkey : strtok d s = some (key, behind))
    (hvalue : strtok e (behind.getD []) = none) : records d e s = [⟨key, behind, none⟩] := by
  obtain ⟨h0, hlen⟩ := strtok_length hkey
  have hpos := List.length_pos_of_ne_nil h0
  obtain ⟨n, hn⟩ := Nat.exists_eq_add_of_lt (show 0 < s.length by omega)
  rw [records, hn, Nat.zero_add, recordsLoop, hkey]
  dsimp only
  rw [hvalue]

/-- The last record. -/
theorem records_last (hkey : strtok d s = some (key, behind))
    (hvalue : strtok e (behind.getD []) = some (value, none)) :
    records d e s = [⟨key, behind, some value⟩] := by
  obtain ⟨h0, hlen⟩ := strtok_length hkey
  have hpos := List.length_pos_of_ne_nil h0
  obtain ⟨n, hn⟩ := Nat.exists_eq_add_of_lt (show 0 < s.length by omega)
  have hnil : recordsLoop d e n ([] : List α) = [] := by
    cases n with
    | zero => rfl
    | succ n => rfl
  rw [records, hn, Nat.zero_add, recordsLoop, hkey]
  dsimp only
  rw [hvalue]
  dsimp only
  rw [Option.getD_none, hnil]

/-- A line, of a key and a value, at the head of a text. -/
theorem records_line (rest : List α) (hd : d ∉ key) (he : e ∉ value) (hkey : key ≠ []) (hvalue : value ≠ []) :
    records d e (key ++ d :: (value ++ e :: rest)) =
      ⟨key, some (value ++ e :: rest), some value⟩ :: records d e rest :=
  records_cons (strtok_append hd hkey) (strtok_append he hvalue)

/-- The room a record takes up in a text, with its separators. -/
def Record.room (r : Record α) : ℕ := r.value.elim 0 fun value => r.key.length + value.length + 2

/-- **The records are of the text**, where the last separator may be missing. -/
theorem sum_room_le (d e : α) (s : List α) :
    ((records d e s).map Record.room).sum ≤ s.length + 1 := by
  suffices ∀ n s, ((recordsLoop d e n s).map Record.room).sum ≤ s.length + 1 from this s.length s
  intro n
  induction n with
  | zero =>
    intro s
    exact Nat.zero_le _
  | succ n ih =>
    intro s
    rw [recordsLoop]
    rcases hkey : strtok d s with _ | ⟨key, behind⟩
    · exact Nat.zero_le _
    · dsimp only
      rcases hvalue : strtok e (behind.getD []) with _ | ⟨value, rest⟩
      · simp [Record.room]
      · have hrest := ih (rest.getD [])
        simp only [List.map_cons, List.sum_cons, Record.room, Option.elim_some]
        have hk := (strtok_length hkey).2
        have hv := (strtok_length hvalue).2
        cases behind with
        | none => simp [strtok_nil] at hvalue
        | some text =>
          cases rest with
          | none =>
            have hnil : recordsLoop d e n ([] : List α) = [] := by
              cases n with
              | zero => rfl
              | succ n => rfl
            simp only [Option.getD_none, hnil, Option.elim_some, Option.elim_none,
              Option.getD_some, List.map_nil, List.sum_nil] at hk hv ⊢
            omega
          | some rest =>
            simp only [Option.getD_some, Option.elim_some] at hk hv hrest ⊢
            omega

end Tokens

end Entangled
