import Docsmith.Text.Fill

namespace Docsmith.Text

/-!
# The characters of filled lines

What is not blank in a text stands in a word of a paragraph, and the lines of a text are made of the
characters of its words and of spaces between them.

* `mem_wordsOf_iff`: the characters of words are those that are not blank.
* `exists_mem_paragraphWords`: they are kept when a text is cut into paragraphs.
* `plain_of_mem_wrapChars`: the characters of filled lines.
* `wrapChars_ne_nil`: a text has lines unless it is blank.
-/

variable {cs acc line w : List Char} {ws : List (List Char)} {x : Char} {width : Nat}

/-! ### Words -/

/-- The characters of words are those of the word under way and those of the text that are not blank. -/
theorem mem_wordsFrom_iff (acc cs : List Char) (hacc : ∀ c ∈ acc, isBlank c = false) :
    (∃ w ∈ wordsFrom acc cs, x ∈ w) ↔ x ∈ acc ∨ (x ∈ cs ∧ isBlank x = false) := by
  fun_induction wordsFrom acc cs with
  | case1 => simp
  | case2 c acc => simp [or_comm]
  | case3 c rest hblank ih =>
    rw [ih (by simp)]
    grind
  | case4 c rest hblank a acc ih =>
    simp only [List.mem_cons, exists_eq_or_imp]
    grind
  | case5 acc c rest hblank ih =>
    rw [ih (by grind)]
    grind

/-- The characters of words are those of the text that are not blank. -/
theorem mem_wordsOf_iff : (∃ w ∈ wordsOf cs, x ∈ w) ↔ x ∈ cs ∧ isBlank x = false := by
  rw [wordsOf, mem_wordsFrom_iff [] cs (by simp)]
  simp

/-! ### Paragraphs -/

/-- What is not blank is kept when the blanks before a text are dropped. -/
theorem mem_dropBlanks (hx : x ∈ cs) (hblank : isBlank x = false) : x ∈ cs.dropWhile isBlank := by
  rw [← List.takeWhile_append_dropWhile (p := isBlank) (l := cs)] at hx
  rcases List.mem_append.mp hx with hbefore | hafter
  · have hdark := List.all_eq_true.mp (List.all_takeWhile (p := isBlank) (l := cs)) x hbefore
    rw [hblank] at hdark
    cases hdark
  · exact hafter

/-- What is not blank is kept after a paragraph break. -/
theorem mem_of_afterBreak? {rest : List Char} (h : afterBreak? cs = some rest) (hx : x ∈ cs)
    (hblank : isBlank x = false) : x ∈ rest := by
  unfold afterBreak? at h
  split at h
  · rename_i rest
    dsimp only at h
    split at h
    · cases h
      have hrest : x ∈ rest := by
        rcases List.mem_cons.mp hx with rfl | hrest
        · exact absurd hblank (by decide)
        · exact hrest
      exact List.mem_append_right _ (mem_dropBlanks hrest hblank)
    · cases h
  · cases h

/-- What is not blank is in one of the pieces. -/
theorem exists_mem_chunksFrom (fuel : Nat) (acc cs : List Char) (hx : x ∈ acc ∨ x ∈ cs)
    (hblank : isBlank x = false) : ∃ chunk ∈ chunksFrom fuel acc cs, x ∈ chunk := by
  fun_induction chunksFrom fuel acc cs with
  | case1 acc cs => exact ⟨_, List.mem_singleton_self _, by simpa using hx⟩
  | case2 fuel acc => exact ⟨_, List.mem_singleton_self _, by simpa using hx⟩
  | case3 fuel acc c rest rest' hbreak ih =>
    rcases hx with hacc | hcs
    · exact ⟨_, List.mem_cons_self, List.mem_reverse.mpr hacc⟩
    · obtain ⟨chunk, hchunk, hmem⟩ := ih (.inr (mem_of_afterBreak? hbreak hcs hblank))
      exact ⟨chunk, List.mem_cons_of_mem _ hchunk, hmem⟩
  | case4 fuel acc c rest hbreak ih => exact ih (by grind)

/-- Trimming keeps what is not blank. -/
theorem mem_trimChars (hx : x ∈ cs) (hblank : isBlank x = false) : x ∈ trimChars cs := by
  have hleft : x ∈ trimLeftChars cs := mem_dropBlanks hx hblank
  unfold trimChars trimRightChars
  exact List.mem_reverse.mpr (mem_dropBlanks (List.mem_reverse.mpr hleft) hblank)

/-- What is not blank in a text stands in a word of a paragraph. -/
theorem exists_mem_paragraphWords (hx : x ∈ cs) (hblank : isBlank x = false) :
    ∃ ws ∈ paragraphWords cs, ∃ w ∈ ws, x ∈ w := by
  obtain ⟨chunk, hchunk, hmem⟩ :=
    exists_mem_chunksFrom _ [] (trimChars cs) (.inr (mem_trimChars hx hblank)) hblank
  obtain ⟨w, hw, hxw⟩ := mem_wordsOf_iff.mpr ⟨hmem, hblank⟩
  refine ⟨wordsOf chunk, List.mem_filter.mpr ⟨List.mem_map_of_mem hchunk, ?_⟩, w, hw, hxw⟩
  cases hwords : wordsOf chunk with
  | nil => rw [hwords] at hw; cases hw
  | cons => rfl

/-- The words of paragraphs have no blanks. -/
theorem dark_of_mem_paragraphWords (hws : ws ∈ paragraphWords cs) (hw : w ∈ ws) (hx : x ∈ w) :
    isBlank x = false := by
  obtain ⟨hmap, -⟩ := List.mem_filter.mp hws
  obtain ⟨chunk, -, rfl⟩ := List.mem_map.mp hmap
  exact (mem_wordsOf_iff.mp ⟨w, hw, hx⟩).2

/-! ### Filled lines -/

/-- The characters of the lines that are filled are those of the words and spaces between them. -/
theorem mem_fillFrom (width : Nat) (line : List Char) (ws : List (List Char)) :
    ∀ l ∈ fillFrom width line ws, ∀ c ∈ l, c ∈ line ∨ c = ' ' ∨ ∃ w ∈ ws, c ∈ w := by
  fun_induction fillFrom width line ws with
  | case1 line => grind
  | case2 line w ws hfits ih => grind
  | case3 line w ws hfits ih => grind

/-- The lines of groups are those of each group, and empty ones between them. -/
theorem mem_separateGroups {gs : List (List (List Char))} :
    ∀ l ∈ separateGroups gs, l = [] ∨ ∃ g ∈ gs, l ∈ g := by
  fun_induction separateGroups gs with
  | case1 => simp
  | case2 g => exact fun l hl => .inr ⟨g, by simp, hl⟩
  | case3 g gs hgs ih => grind

/-- **The characters of filled lines** are spaces and such that are not blank. -/
theorem plain_of_mem_wrapChars (hline : line ∈ wrapChars width cs) (hx : x ∈ line) :
    x = ' ' ∨ isBlank x = false := by
  rcases mem_separateGroups line hline with rfl | ⟨g, hg, hmem⟩
  · cases hx
  · obtain ⟨ws, hws, rfl⟩ := List.mem_map.mp hg
    cases ws with
    | nil => cases hmem
    | cons w ws =>
      rcases mem_fillFrom width w ws line hmem x hx with hw | rfl | ⟨v, hv, hxv⟩
      · exact .inr (dark_of_mem_paragraphWords hws List.mem_cons_self hw)
      · exact .inl rfl
      · exact .inr (dark_of_mem_paragraphWords hws (List.mem_cons_of_mem _ hv) hxv)

/-- There is a line for words. -/
theorem fillFrom_ne_nil (width : Nat) (line : List Char) (ws : List (List Char)) :
    fillFrom width line ws ≠ [] := by
  fun_induction fillFrom width line ws with
  | case1 line => simp
  | case2 line w ws hfits ih => exact ih
  | case3 line w ws hfits ih => simp

/-- **A text has lines unless it is blank.** -/
theorem wrapChars_ne_nil (width : Nat) (hx : x ∈ cs) (hblank : isBlank x = false) :
    wrapChars width cs ≠ [] := by
  obtain ⟨ws, hws, w, hw, -⟩ := exists_mem_paragraphWords hx hblank
  have hfilled : fillWords width ws ≠ [] := by
    cases ws with
    | nil => cases hw
    | cons v vs => exact fillFrom_ne_nil width v vs
  have hgroup : fillWords width ws ∈ (paragraphWords cs).map (fillWords width) :=
    List.mem_map_of_mem hws
  unfold wrapChars
  generalize (paragraphWords cs).map (fillWords width) = gs at hgroup
  match gs with
  | [] => cases hgroup
  | [g] =>
    rw [List.mem_singleton] at hgroup
    rwa [← hgroup]
  | g :: h :: gs => simp [separateGroups]

end Docsmith.Text
