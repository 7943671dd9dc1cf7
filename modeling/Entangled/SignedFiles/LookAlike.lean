import Entangled.SignedFiles.Digest
/-!
# Which texts share a digest

Two texts that are fed to Keccak as the same blocks need not be the same. The last byte of the file
is never looked at, of the character at place 40 of every 81 in a line only a part is, and a tab
there that ends its line looks like a line break. `LookAlike` is the relation these three make up,
and `digestFile_binds_iff` says that nothing else is lost.
-/

namespace Entangled

namespace SignedFiles

variable {line line' : List Int8} {lines lines' : List (List Int8)} {i j : ℕ}

/-- Lines of one length that agree but for the characters at place 40 of every 81. These agree in
their high part, and in the low one modulo 9. -/
structure TwinLine (line line' : List Int8) : Prop where
  length : line.length = line'.length
  high : ∀ j, code line j / 27 = code line' j / 27
  low : ∀ j, code line j % 9 = code line' j % 9
  same : ∀ j, j % 81 ≠ 40 → code line j = code line' j

/-- Texts with twin lines, where a tab at place 40 that ends its line may stand for a line
break. -/
inductive Alike : List (List Int8) → List (List Int8) → Prop
  | nil : Alike [] []
  | line {line line' : List Int8} {lines lines' : List (List Int8)} (h : TwinLine line line')
      (t : Alike lines lines') : Alike (line :: lines) (line' :: lines')
  | tab {line line' : List Int8} {lines lines' : List (List Int8)} (h : TwinLine line line')
      (hl : line.length % 81 = 40) (t : Alike lines lines') :
      Alike (line :: [] :: lines) ((line' ++ [9]) :: lines')
  | newline {line line' : List Int8} {lines lines' : List (List Int8)} (h : TwinLine line line')
      (hl : line'.length % 81 = 40) (t : Alike lines lines') :
      Alike ((line ++ [9]) :: lines) (line' :: [] :: lines')

/-- The lines of a file, each without its last byte. -/
def texts (file : List Int8) : List (List Int8) := (getlines file).map strip

/-- Files that cannot be told apart. -/
def LookAlike (file file' : List Int8) : Prop := Alike (texts file) (texts file')

theorem TwinLine.symm (h : TwinLine line line') : TwinLine line' line :=
  ⟨h.length.symm, fun j => (h.high j).symm, fun j => (h.low j).symm,
    fun j hj => (h.same j hj).symm⟩

theorem Alike.symm (h : Alike lines lines') : Alike lines' lines := by
  induction h with
  | nil => exact .nil
  | line h _ ih => exact .line h.symm ih
  | tab h hl _ ih => exact .newline h.symm hl ih
  | newline h hl _ ih => exact .tab h.symm hl ih

/-! ## What is seen of a line -/

theorem seen_even (hi : i % 2 = 0) :
    seen line i = if i % 81 = 80 then code line (i / 2) % 9 else code line (i / 2) % 27 := by
  rw [seen, letters, if_pos hi]
  split_ifs
  · omega
  · rfl

theorem seen_even_mod (hi : i % 2 = 0) : seen line i % 9 = code line (i / 2) % 9 := by
  rw [seen_even hi]
  split_ifs <;> omega

/-- The high part of a character is always seen. -/
theorem seen_odd (h : TextLine line) (hi : i % 2 = 1) : seen line i = code line (i / 2) / 27 := by
  have hle := letters_odd h hi
  have heq : letters line i = code line (i / 2) / 27 := by rw [letters, if_neg (by omega)]
  rw [seen]
  split_ifs <;> omega

theorem seen_of_le (h : 2 * line.length ≤ i) : seen line i = 0 := by
  rw [seen, letters, code_of_le (by omega)]
  simp

theorem code_eq_zero_iff (h : TextLine line) : code line j = 0 ↔ line.length ≤ j := by
  constructor
  · intro hz
    by_contra hlt
    have := h.code_spec (Nat.lt_of_not_le hlt)
    omega
  · exact code_of_le

/-- A character whose low part is seen to be neither a tab nor nothing has a high part. -/
theorem TextLine.high_pos (h : TextLine line) (hj : code line j % 9 ≠ 0) :
    1 ≤ code line j / 27 := by
  rcases Nat.lt_or_ge j line.length with hlt | hge
  · have := h.code_spec hlt
    omega
  · exact absurd (by rw [code_of_le hge]) hj

theorem TwinLine.seen_eq (h : TwinLine line line') (i : ℕ) : seen line i = seen line' i := by
  have hhigh := h.high (i / 2)
  have hlow := h.low (i / 2)
  have hsame := h.same (i / 2)
  unfold seen letters
  split_ifs with h80 h2 h2
  · omega
  · rw [hhigh]
  · rw [hsame (by omega)]
  · rw [hhigh]

/-- Lines with as many characters that are seen to be the same are twins. -/
theorem twinLine_of_seen (h : TextLine line) (h' : TextLine line')
    (hlen : line.length = line'.length)
    (hseen : ∀ i < 2 * line.length, seen line i = seen line' i) :
    TwinLine line line' := by
  have hat : ∀ j, code line j / 27 = code line' j / 27 ∧ code line j % 9 = code line' j % 9 ∧
      (j % 81 ≠ 40 → code line j % 27 = code line' j % 27) := by
    intro j
    rcases Nat.lt_or_ge j line.length with hj | hj
    · have heven := hseen (2 * j) (by omega)
      have hmod := congrArg (· % 9) heven
      have hodd := hseen (2 * j + 1) (by omega)
      rw [seen_even_mod (by omega), seen_even_mod (by omega), Nat.mul_div_cancel_left _ two_pos]
        at hmod
      rw [seen_odd h (by omega), seen_odd h' (by omega), show (2 * j + 1) / 2 = j by omega] at hodd
      refine ⟨hodd, hmod, fun h40 => ?_⟩
      rwa [seen_even (by omega), seen_even (by omega), if_neg (by omega), if_neg (by omega),
        Nat.mul_div_cancel_left _ two_pos] at heven
    · rw [code_of_le hj, code_of_le (by omega)]
      exact ⟨rfl, rfl, fun _ => rfl⟩
  refine ⟨hlen, fun j => (hat j).1, fun j => (hat j).2.1, fun j hj => ?_⟩
  have h₁ := (hat j).1
  have h₂ := (hat j).2.2 hj
  omega

/-! ## Pages -/

theorem seen_of_row_eq {b b' : ℕ} (h : row line b = row line' b') (hj : j < 81) :
    seen line (81 * b + j) = seen line' (81 * b' + j) := by
  rw [← getD_row hj, h, getD_row hj]

/-- Two lists that begin with so many entries. -/
theorem map_range_append_inj {α : Type} {f g : ℕ → α} {as bs : List α} {n n' : ℕ} (hn : n ≤ n')
    (h : (List.range n).map f ++ as = (List.range n').map g ++ bs) :
    (∀ b < n, f b = g b) ∧ as = (List.range (n' - n)).map (fun b => g (n + b)) ++ bs := by
  obtain ⟨k, rfl⟩ := Nat.exists_eq_add_of_le hn
  rw [List.range_add, List.map_append, List.append_assoc, List.map_map] at h
  obtain ⟨hhead, htail⟩ := List.append_inj h (by simp)
  refine ⟨fun b hb => List.map_inj_left.mp hhead b (List.mem_range.mpr hb), ?_⟩
  rw [Nat.add_sub_cancel_left]
  exact htail

theorem length_le_of_seen (h' : TextLine line') (hrows : rows line = rows line')
    (hseen : ∀ i < 81 * rows line, seen line i = seen line' i) : line'.length ≤ line.length := by
  by_contra hlt
  have hfit : rows line = line.length * 6 / 243 + 1 := rfl
  have hfit' : rows line' = line'.length * 6 / 243 + 1 := rfl
  -- the first character that is missing: it would have to be seen
  have heven := hseen (2 * line.length) (by omega)
  have hodd := hseen (2 * line.length + 1) (by omega)
  rw [seen_of_le le_rfl, seen_even (by omega), if_neg (by omega),
    Nat.mul_div_cancel_left _ two_pos] at heven
  rw [seen_of_le (by omega), seen_odd h' (by omega),
    show (2 * line.length + 1) / 2 = line.length by omega] at hodd
  have := (code_eq_zero_iff h').mp (show code line' line.length = 0 by omega)
  omega

/-- **A line that goes on** where the other has ended, and whose rest is seen as the beginning of
another line `next`, meets an empty one. The two are spelled out of step, so no character of `next`
could be the last one, and none of the line. -/
theorem next_eq_nil {next : List Int8} {n b : ℕ} (h' : TextLine line') (hnext : TextLine next)
    (hn : 81 * n = 2 * line.length + 1)
    (hend : b = rows next ∨ 2 * line'.length < 81 * (n + b))
    (hlt : line.length < line'.length)
    (hseen : ∀ i < 81 * b, seen next i = seen line' (81 * n + i)) : next = [] := by
  by_contra hne
  have hpos : 0 < next.length := List.length_pos_iff.mpr hne
  -- the letters of `next` against those of the line, one letter apart
  have heven : ∀ j, 2 * j < 81 * b → seen next (2 * j) = code line' (line.length + j) / 27 := by
    intro j hj
    rw [hseen _ hj, seen_odd h' (by omega)]
    congr 2
    omega
  have hodd : ∀ j, 2 * j + 1 < 81 * b →
      code next j / 27 % 9 = code line' (line.length + j + 1) % 9 := by
    intro j hj
    have heq := hseen _ hj
    rw [seen_odd hnext (by omega), show (2 * j + 1) / 2 = j by omega] at heq
    rw [heq, seen_even_mod (by omega),
      show (81 * n + (2 * j + 1)) / 2 = line.length + j + 1 by omega]
  have hhigh : ∀ j, 2 * j < 81 * b → 1 ≤ code next j / 27 := by
    intro j
    induction j with
    | zero =>
      intro hj
      have heq := heven 0 hj
      have hle := h'.code_le (line.length + 0)
      rw [seen_even (by omega), if_neg (by omega), Nat.mul_zero, Nat.zero_div] at heq
      have := hnext.code_spec hpos
      omega
    | succ j ih =>
      intro hj
      have hprev := ih (by omega)
      have hle := hnext.code_le j
      have hline := h'.high_pos (j := line.length + j + 1) (by
        rw [← hodd j (by omega)]
        omega)
      have hle' := h'.code_le (line.length + j + 1)
      have heq := congrArg (· % 9) (heven (j + 1) hj)
      rw [seen_even_mod (by omega), Nat.mul_div_cancel_left _ two_pos, ← Nat.add_assoc] at heq
      exact hnext.high_pos (by omega)
  rcases hend with hend | hend
  · -- `next` ends first
    have hfit : rows next = next.length * 6 / 243 + 1 := rfl
    have := hhigh next.length (by omega)
    rw [code_of_le le_rfl] at this
    omega
  · -- the line ends first
    have hlast := hhigh (line'.length - line.length - 1) (by omega)
    have hle := hnext.code_le (line'.length - line.length - 1)
    have := hodd (line'.length - line.length - 1) (by omega)
    rw [code_of_le (by omega : line'.length ≤ line.length + (line'.length - line.length - 1) + 1)]
      at this
    omega

theorem rows_pos (line : List Int8) : 1 ≤ rows line := Nat.le_add_left 1 _

theorem page_cons_ne_nil (line : List Int8) (lines : List (List Int8)) :
    page (line :: lines) ≠ [] := by
  intro h
  have hlen := congrArg List.length h
  rw [page_cons, List.length_append, List.length_map, List.length_range, List.length_nil] at hlen
  have := rows_pos line
  omega

/-- A tab at place 40 that ends the line is not seen. -/
theorem seen_concat_tab (hl : line.length % 81 = 40) (i : ℕ) :
    seen (line ++ [9]) i = seen line i := by
  rcases Nat.lt_or_ge (i / 2) line.length with hi | hi
  · have hcode : code (line ++ [9]) (i / 2) = code line (i / 2) := by
      rw [code, code, List.getD_eq_getElem?_getD, List.getElem?_append_left hi,
        List.getD_eq_getElem?_getD]
    unfold seen letters
    rw [hcode]
  · rw [seen_of_le (by omega : 2 * line.length ≤ i)]
    rcases Nat.eq_or_lt_of_le hi with heq | hlt
    · have hcode : code (line ++ [9]) (i / 2) = 9 := by
        rw [← heq, code, List.getD_eq_getElem?_getD, List.getElem?_concat_length]
        rfl
      unfold seen letters
      rw [hcode]
      split_ifs <;> omega
    · exact seen_of_le (by rw [List.length_append, List.length_singleton]; omega)

theorem row_congr {b : ℕ} (h : ∀ i, seen line i = seen line' i) : row line b = row line' b :=
  List.map_congr_left fun _ _ => h _

/-- **Alike texts have one page.** -/
theorem Alike.page_eq (h : Alike lines lines') : page lines = page lines' := by
  induction h with
  | nil => rfl
  | line h _ ih =>
    have hrows : rows _ = rows _ := congrArg (· * 6 / 243 + 1) h.length
    rw [page_cons, page_cons, ih, hrows]
    congr 1
    exact List.map_congr_left fun b _ => row_congr h.seen_eq
  | tab h hl _ ih => exact page_tab h hl ih
  | newline h hl _ ih => exact (page_tab h.symm hl ih.symm).symm
where
  page_tab {line line' : List Int8} {lines lines' : List (List Int8)} (h : TwinLine line line')
      (hl : line.length % 81 = 40) (ih : page lines = page lines') :
      page (line :: [] :: lines) = page ((line' ++ [9]) :: lines') := by
    have hlen := h.length
    have hrows : rows (line' ++ [9]) = rows line + 1 := by
      unfold rows
      rw [List.length_append, List.length_singleton]
      omega
    have hseen : ∀ i, seen line i = seen (line' ++ [9]) i := fun i => by
      rw [h.seen_eq, seen_concat_tab (hlen ▸ hl)]
    have hempty : row [] 0 = row (line' ++ [9]) (rows line) := by
      refine List.map_congr_left fun j _ => ?_
      rw [← hseen, seen_of_le (Nat.zero_le _), seen_of_le]
      unfold rows
      omega
    rw [page_cons, page_cons, page_cons, ih, hrows, List.range_succ, List.map_append,
      List.append_assoc]
    congr 1
    · exact List.map_congr_left fun b _ => row_congr hseen
    · rw [List.map_singleton, ← hempty]
      rfl

/-- A line that another one goes on from ends with its last block: one place after its last
character the other would show that it goes on. -/
theorem rows_of_longer (hline' : TextLine line') (hm : line.length < line'.length)
    (hseen : ∀ i < 81 * rows line, seen line i = seen line' i) :
    81 * rows line = 2 * line.length + 1 := by
  have hfit : rows line = line.length * 6 / 243 + 1 := rfl
  have hfirst := hseen (2 * line.length) (by omega)
  have hmod := congrArg (· % 9) hfirst
  rw [seen_of_le le_rfl, seen_even_mod (by omega), Nat.mul_div_cancel_left _ two_pos] at hmod
  by_contra hne
  have hsecond := hseen (2 * line.length + 1) (by omega)
  rw [seen_of_le le_rfl, seen_even (by omega), if_neg (by omega),
    Nat.mul_div_cancel_left _ two_pos] at hfirst
  rw [seen_of_le (by omega), seen_odd hline' (by omega),
    show (2 * line.length + 1) / 2 = line.length by omega] at hsecond
  have := (code_eq_zero_iff hline').mp (show code line' line.length = 0 by omega)
  omega

/-- Where the next block of a line looks empty, the line goes on with a single tab. -/
theorem eq_concat_tab (hline' : TextLine line') (hm : line.length < line'.length)
    (hn : 81 * rows line = 2 * line.length + 1)
    (hzero : ∀ i < 81 * 1, seen [] i = seen line' (81 * rows line + i)) :
    ∃ line₀, line' = line₀ ++ [9] ∧ line.length = line₀.length ∧ line.length % 81 = 40 := by
  have h₀ := hzero 0 (by decide)
  have h₁ := hzero 1 (by decide)
  have h₂ := hzero 2 (by decide)
  rw [seen_of_le (Nat.zero_le _), hn, seen_odd hline' (by omega),
    show (2 * line.length + 1 + 0) / 2 = line.length by omega] at h₀
  rw [seen_of_le (Nat.zero_le _), hn, seen_even (by omega), if_neg (by omega),
    show (2 * line.length + 1 + 1) / 2 = line.length + 1 by omega] at h₁
  rw [seen_of_le (Nat.zero_le _), hn, seen_odd hline' (by omega),
    show (2 * line.length + 1 + 2) / 2 = line.length + 1 by omega] at h₂
  have htab : code line' line.length = 9 := by
    have := hline'.code_spec hm
    omega
  have hlen' : line'.length = line.length + 1 := by
    have := (code_eq_zero_iff hline').mp (show code line' (line.length + 1) = 0 by omega)
    omega
  rcases List.eq_nil_or_concat' line' with rfl | ⟨line₀, c, rfl⟩
  · rw [List.length_nil] at hm
    omega
  · have hlen₀ : line.length = line₀.length := by simpa using hlen'.symm
    have hc : c = 9 := by
      have hchar := (hline' c (List.mem_append_right _ (List.mem_singleton_self c))).code_pos
      rw [code, hlen₀, List.getD_eq_getElem?_getD, List.getElem?_concat_length,
        Option.getD_some] at htab
      exact Int8.toInt_inj.mp (show c.toInt = 9 by omega)
    exact ⟨line₀, by rw [hc], hlen₀, by omega⟩

/-- What one page says of the first lines of two texts. -/
theorem page_split (h : ∀ l ∈ line :: lines, TextLine l) (h' : ∀ l ∈ line' :: lines', TextLine l)
    (hrows : rows line ≤ rows line')
    (hpage : page (line :: lines) = page (line' :: lines')) :
    TwinLine line line' ∧ page lines = page lines' ∨
      ∃ line₀ rest, line' = line₀ ++ [9] ∧ TwinLine line line₀ ∧ line.length % 81 = 40 ∧
        lines = [] :: rest ∧ page rest = page lines' := by
  have hline := h line List.mem_cons_self
  have hline' := h' line' List.mem_cons_self
  have hfit : rows line = line.length * 6 / 243 + 1 := rfl
  have hfit' : rows line' = line'.length * 6 / 243 + 1 := rfl
  rw [page_cons, page_cons] at hpage
  obtain ⟨hrow, htail⟩ := map_range_append_inj hrows hpage
  have hseen : ∀ i < 81 * rows line, seen line i = seen line' i := by
    intro i hi
    have := seen_of_row_eq (hrow (i / 81) (by omega)) (Nat.mod_lt i (by decide))
    rwa [Nat.div_add_mod] at this
  rcases Nat.eq_or_lt_of_le hrows with heq | hlt
  · -- as many blocks: the lines are twins
    refine .inl ⟨twinLine_of_seen hline hline' (Nat.le_antisymm ?_ ?_) fun i hi =>
      hseen i (by omega), ?_⟩
    · exact length_le_of_seen hline heq.symm fun i hi => (hseen i (heq ▸ hi)).symm
    · exact length_le_of_seen hline' heq hseen
    · rwa [heq, Nat.sub_self] at htail
  · -- the other line has more: it goes on where this one ends
    have hm : line.length < line'.length := by omega
    have hn := rows_of_longer hline' hm hseen
    cases lines with
    | nil =>
      have hlen := congrArg List.length htail
      rw [page, List.flatMap_nil, List.length_nil, List.length_append, List.length_map,
        List.length_range] at hlen
      omega
    | cons next rest =>
      have htext : TextLine next := h next (List.mem_cons_of_mem _ List.mem_cons_self)
      -- the blocks both have
      have hboth : ∀ b, b ≤ rows next → b ≤ rows line' - rows line →
          ∀ i < 81 * b, seen next i = seen line' (81 * rows line + i) := by
        intro b hb hb' i hi
        have hat := congrArg (·[i / 81]?) htail
        rw [page_cons, List.getElem?_append_left (by simp; omega),
          List.getElem?_append_left (by simp; omega), List.getElem?_map, List.getElem?_map,
          List.getElem?_range (by omega), List.getElem?_range (by omega)] at hat
        have := seen_of_row_eq (Option.some_inj.mp hat) (Nat.mod_lt i (by decide))
        rwa [Nat.div_add_mod, Nat.mul_add, Nat.add_assoc, Nat.div_add_mod] at this
      have hnil : next = [] := by
        rcases Nat.le_total (rows next) (rows line' - rows line) with hb | hb
        · exact next_eq_nil hline' htext hn (.inl rfl) hm (hboth _ le_rfl hb)
        · exact next_eq_nil hline' htext hn (.inr (by omega)) hm (hboth _ hb le_rfl)
      subst hnil
      obtain ⟨line₀, rfl, hlen₀, hl⟩ :=
        eq_concat_tab hline' hm hn (hboth 1 le_rfl (by omega))
      refine .inr ⟨line₀, rest, rfl, ?_, hl, rfl, ?_⟩
      · refine twinLine_of_seen hline (fun a ha => hline' a (List.mem_append_left _ ha)) hlen₀ ?_
        intro i hi
        rw [hseen i (by omega), seen_concat_tab (hlen₀ ▸ hl)]
      · have hone : rows (line₀ ++ [9]) - rows line = 1 := by
          rw [List.length_append, List.length_singleton] at hfit'
          omega
        rw [hone, page_cons] at htail
        exact (map_range_append_inj (show rows [] ≤ 1 from le_rfl) htail).2

/-- **Texts have one page exactly where they are alike.** -/
theorem page_eq_iff (h : ∀ l ∈ lines, TextLine l) (h' : ∀ l ∈ lines', TextLine l) :
    page lines = page lines' ↔ Alike lines lines' := by
  refine ⟨fun hpage => ?_, Alike.page_eq⟩
  -- either text may be the one with a line that goes on, so the induction is on both
  induction hn : lines.length + lines'.length using Nat.strong_induction_on
    generalizing lines lines' with
  | _ n ih =>
    subst hn
    rcases lines with _ | ⟨line, lines⟩ <;> rcases lines' with _ | ⟨line', lines'⟩
    · exact .nil
    · exact absurd hpage.symm (page_cons_ne_nil line' lines')
    · exact absurd hpage (page_cons_ne_nil line lines)
    · have hrest : ∀ l ∈ lines, TextLine l := fun l hl => h l (List.mem_cons_of_mem _ hl)
      have hrest' : ∀ l ∈ lines', TextLine l := fun l hl => h' l (List.mem_cons_of_mem _ hl)
      rcases Nat.le_total (rows line) (rows line') with hrows | hrows
      · rcases page_split h h' hrows hpage with ⟨htwin, htail⟩ |
          ⟨line₀, rest, rfl, htwin, hl, rfl, htail⟩
        · exact .line htwin (ih _ (by simp only [List.length_cons]; omega) hrest hrest' htail rfl)
        · exact .tab htwin hl (ih _ (by simp only [List.length_cons]; omega)
            (fun l hl => hrest l (List.mem_cons_of_mem _ hl)) hrest' htail rfl)
      · rcases page_split h' h hrows hpage.symm with ⟨htwin, htail⟩ |
          ⟨line₀, rest, rfl, htwin, hl, rfl, htail⟩
        · exact .line htwin.symm
            (ih _ (by simp only [List.length_cons]; omega) hrest hrest' htail.symm rfl)
        · exact .newline htwin.symm hl (ih _ (by simp only [List.length_cons]; omega)
            hrest (fun l hl => hrest' l (List.mem_cons_of_mem _ hl)) htail.symm rfl)

/-! ## Files -/

theorem getlines_spec (file : List Int8) :
    ∀ raw ∈ getlines file, raw ≠ [] ∧ ∀ c ∈ strip raw, c ∈ file ∧ c ≠ 10 := by
  induction file with
  | nil => exact fun raw hraw => absurd hraw List.not_mem_nil
  | cons c cs ih =>
    have ih' : ∀ raw ∈ getlines cs, raw ≠ [] ∧ ∀ x ∈ strip raw, x ∈ c :: cs ∧ x ≠ 10 :=
      fun raw hraw => ⟨(ih raw hraw).1, fun x hx =>
        ⟨List.mem_cons_of_mem c ((ih raw hraw).2 x hx).1, ((ih raw hraw).2 x hx).2⟩⟩
    intro raw hraw
    rw [getlines] at hraw
    split_ifs at hraw with hc
    · rcases List.mem_cons.mp hraw with rfl | hraw
      · exact ⟨List.cons_ne_nil _ _, fun x hx => absurd hx List.not_mem_nil⟩
      · exact ih' raw hraw
    · split at hraw
      · rw [List.mem_singleton.mp hraw]
        exact ⟨List.cons_ne_nil _ _, fun x hx => absurd hx List.not_mem_nil⟩
      · rename_i line lines heq
        rw [heq] at ih'
        obtain ⟨hne, hline⟩ := ih' line List.mem_cons_self
        rcases List.mem_cons.mp hraw with rfl | hraw
        · refine ⟨List.cons_ne_nil _ _, fun x hx => ?_⟩
          rw [strip, List.dropLast_cons_of_ne_nil hne] at hx
          rcases List.mem_cons.mp hx with rfl | hx
          · exact ⟨List.mem_cons_self, hc⟩
          · exact hline x hx
        · exact ih' raw (List.mem_cons_of_mem _ hraw)

theorem TextFile.texts {file : List Int8} (h : TextFile file) :
    ∀ line ∈ texts file, TextLine line := by
  intro line hline c hc
  obtain ⟨raw, hraw, rfl⟩ := List.mem_map.mp hline
  obtain ⟨hmem, hne⟩ := (getlines_spec file raw hraw).2 c hc
  exact (h c hmem).resolve_left hne

theorem map_encode_injective (h : ∀ l ∈ lines, TextLine l) (h' : ∀ l ∈ lines', TextLine l)
    (heq : (page lines).map encode = (page lines').map encode) : page lines = page lines' := by
  have hrow : ∀ {lines : List (List Int8)}, (∀ l ∈ lines, TextLine l) → ∀ r ∈ page lines,
      ∃ line b, TextLine line ∧ r = row line b := by
    intro lines h r hr
    obtain ⟨line, hline, hr⟩ := List.mem_flatMap.mp hr
    obtain ⟨b, -, rfl⟩ := List.mem_map.mp hr
    exact ⟨line, b, h line hline, rfl⟩
  have hl := hrow h
  have hl' := hrow h'
  generalize page lines = p at heq hl
  generalize page lines' = p' at heq hl'
  induction p generalizing p' with
  | nil => exact (List.map_eq_nil_iff.mp heq.symm).symm
  | cons r p ih =>
    obtain ⟨r', p', rfl, hr, hp⟩ := List.map_eq_cons_iff.mp heq.symm
    obtain ⟨line, b, ht, rfl⟩ := hl r List.mem_cons_self
    obtain ⟨line', b', ht', rfl⟩ := hl' r' List.mem_cons_self
    rw [encode_row_injective ht ht' hr.symm, ih (fun q hq => hl q (List.mem_cons_of_mem _ hq)) p'
      hp.symm fun q hq => hl' q (List.mem_cons_of_mem _ hq)]

/-- The blocks of two texts are the same where they look alike. -/
theorem blocks_eq_iff {M M' : Memory} {file file' : List Int8}
    {blocks blocks' : List (List UInt8)} (h : TextFile file) (h' : TextFile file')
    (hd : digestFile M file = some blocks) (hd' : digestFile M' file' = some blocks') :
    blocks = blocks' ↔ LookAlike file file' := by
  have hblocks := digestLines_eq
    (fun raw hraw => h.texts _ (List.mem_map.mpr ⟨raw, hraw, rfl⟩)) hd
  have hblocks' := digestLines_eq
    (fun raw hraw => h'.texts _ (List.mem_map.mpr ⟨raw, hraw, rfl⟩)) hd'
  rw [LookAlike, ← page_eq_iff h.texts h'.texts, hblocks, hblocks']
  exact ⟨map_encode_injective h.texts h'.texts, congrArg _⟩

/-- **What a digest binds.** Two texts with a digest are told apart by the blocks Keccak is fed
unless they look alike; what is on the stack makes no difference. -/
theorem digestFile_binds_iff {M M' : Memory} {file file' : List Int8}
    {blocks blocks' : List (List UInt8)} (h : TextFile file) (h' : TextFile file')
    (hd : digestFile M file = some blocks) (hd' : digestFile M' file' = some blocks') :
    (blocks = blocks' → file = file') ↔ (file = file' ∨ ¬ LookAlike file file') := by
  rw [blocks_eq_iff h h' hd hd']
  tauto

/-- What a run may find: a clear stack, and memory. -/
def Memory.plain : Memory where
  stack _ := List.replicate 48 0
  length_stack _ := List.length_replicate
  alloc _ := true

/-- `"a\n"` and `"b\n"` do not look alike. -/
theorem digestFile_binds_iff_sample :
    let blocks line := absorbBlocks (List.replicate 48 0) (tritsSize 1 / 243) (lineTrits line) ++ []
    (blocks [97] = blocks [98] → ([97, 10] : List Int8) = [98, 10]) ↔
      (([97, 10] : List Int8) = [98, 10] ∨ ¬ LookAlike [97, 10] [98, 10]) :=
  digestFile_binds_iff (by decide) (by decide)
    (show digestFile .plain [97, 10] = some _ from rfl)
    (show digestFile .plain [98, 10] = some _ from rfl)

theorem digestFile_plain (file : List Int8) : ∃ blocks, digestFile .plain file = some blocks := by
  have hrun : ∀ lines i, ∃ blocks, digestLines .plain i lines = some blocks := by
    intro lines
    induction lines with
    | nil => exact fun i => ⟨[], rfl⟩
    | cons raw lines ih =>
      intro i
      obtain ⟨blocks, hblocks⟩ := ih (i + 1)
      rw [digestLines, hblocks]
      exact ⟨_, rfl⟩
  exact hrun (getlines file) 0

/-- **Texts that share a digest.** A last line without a newline loses a character, so `"TX\n"` is
`"TXa"`; after forty characters `9` is `B`, and a tab is a line break. A signature of the one is
accepted for the other. -/
theorem digestFile_strays :
    let row : List Int8 := List.replicate 40 57
    let Same (file file' : List Int8) : Prop :=
      TextFile file ∧ TextFile file' ∧ file ≠ file' ∧ (digestFile .plain file).isSome ∧
        digestFile .plain file = digestFile .plain file' ∧
        ∀ keccak validateSignature : List (List UInt8) → List (List UInt8),
          fileSignatureValidate keccak validateSignature .plain file =
            fileSignatureValidate keccak validateSignature .plain file'
    Same [84, 88, 10] [84, 88, 97] ∧ Same (row ++ [57, 10]) (row ++ [66, 10]) ∧
      Same (row ++ [10, 10]) (row ++ [9, 10]) := by
  intro row Same
  have hsame : ∀ file file', TextFile file → TextFile file' → file ≠ file' →
      LookAlike file file' → Same file file' := by
    intro file file' h h' hne halike
    obtain ⟨blocks, hd⟩ := digestFile_plain file
    obtain ⟨blocks', hd'⟩ := digestFile_plain file'
    have heq : digestFile .plain file = digestFile .plain file' := by
      rw [hd, hd', (blocks_eq_iff h h' hd hd').mpr halike]
    refine ⟨h, h', hne, by rw [hd]; rfl, heq, fun keccak validateSignature => ?_⟩
    rw [fileSignatureValidate, fileSignatureValidate, heq]
  have htwin : ∀ line, TwinLine line line :=
    fun line => ⟨rfl, fun _ => rfl, fun _ => rfl, fun _ _ => rfl⟩
  refine ⟨hsame _ _ ?_ ?_ (by decide) ?_, hsame _ _ ?_ ?_ (by decide) ?_,
    hsame _ _ ?_ ?_ (by decide) ?_⟩
  · decide
  · decide
  · exact .line (htwin _) .nil
  · decide
  · decide
  · have h9 : TextLine (row ++ [57]) := by decide
    have hB : TextLine (row ++ [66]) := by decide
    exact .line (twinLine_of_seen h9 hB rfl (by decide)) .nil
  · decide
  · decide
  · exact .tab (htwin row) rfl .nil

end SignedFiles

end Entangled
