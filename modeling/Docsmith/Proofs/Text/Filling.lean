import Docsmith.Proofs.Text.Paragraphs
import Mathlib.Data.List.Chain

namespace Docsmith.Text

/-!
# Filling lines

Lines are filled greedily: each of them has as many words as fit, and no word is lost.  An empty line stands
between two paragraphs and nowhere else, so that the lines of a text have the same paragraphs as the text, and
are filled to the same lines again.

* `IsLine`: words with one space between two.
* `Filled`, `filled_fillWords`: the lines that words are set on.
* `lineGroups`, `lineGroups_separateGroups`: the lines between empty ones.
* `parted_joinWith`: the paragraphs of the lines of a text.
* `wrap_is_greedy`: all of this for the lines of any text.
-/

variable {sep l w line cs : List Char} {vs ws ps ls xs ys : List (List Char)} {gs : List (List (List Char))}
  {width : Nat}

/-! ### Joining -/

/-- A blank letter is white space. -/
theorem blank_of_letter {c : Char} (hc : isBlank c = true) : ∀ d ∈ [c], isBlank d = true :=
  List.forall_mem_singleton.mpr hc

theorem joinWith_cons (hxs : xs ≠ []) (w : List Char) : joinWith sep (w :: xs) = w ++ sep ++ joinWith sep xs := by
  obtain ⟨x, xs, rfl⟩ := List.exists_cons_of_ne_nil hxs
  rfl

theorem joinWith_append (hxs : xs ≠ []) (hys : ys ≠ []) :
    joinWith sep (xs ++ ys) = joinWith sep xs ++ sep ++ joinWith sep ys := by
  induction xs with
  | nil => exact absurd rfl hxs
  | cons x xs ih =>
    by_cases hlast : xs = []
    · rw [hlast, List.singleton_append, joinWith_cons hys]
      rfl
    · rw [List.cons_append, joinWith_cons (by simp [hlast]), ih hlast, joinWith_cons hlast]
      simp only [List.append_assoc]

/-- Paragraphs with less than two line feeds between them are joined to one. -/
theorem paragraph_joinWith (hsep : sep.count '\n' < 2) (hps : ∀ p ∈ ps, Paragraph p) (hne : ps ≠ []) :
    Paragraph (joinWith sep ps) := by
  induction ps with
  | nil => exact absurd rfl hne
  | cons p ps ih =>
    obtain ⟨hp, hrest⟩ := List.forall_mem_cons.mp hps
    by_cases hlast : ps = []
    · rw [hlast]
      exact hp
    · rw [joinWith_cons hlast]
      exact hp.append (ih hrest hlast) hsep

/-- The words of joined texts are those of the texts. -/
theorem wordsOf_joinWith (hsep : ∀ c ∈ sep, isBlank c = true) (hne : sep ≠ []) (xs : List (List Char)) :
    wordsOf (joinWith sep xs) = xs.flatMap wordsOf := by
  induction xs with
  | nil => rfl
  | cons x xs ih =>
    by_cases hlast : xs = []
    · simp [hlast, joinWith]
    · rw [joinWith_cons hlast, wordsOf_append hsep hne, ih, List.flatMap_cons]

/-! ### Lines -/

/-- The line is made of words, with one space between two. -/
structure IsLine (l : List Char) : Prop where
  words : wordsOf l ≠ []
  spaced : joinWith [' '] (wordsOf l) = l

/-- A word is a line. -/
theorem isLine_word (hw : wordsOf w = [w]) : IsLine w where
  words := by simp [hw]
  spaced := by simp [hw, joinWith]

/-- The words of a line that another one is set on. -/
theorem wordsOf_set (hw : wordsOf w = [w]) (l : List Char) : wordsOf (l ++ ' ' :: w) = wordsOf l ++ [w] := by
  have hsplit : l ++ ' ' :: w = l ++ [' '] ++ w := by simp
  rw [hsplit, wordsOf_append (blank_of_letter (by decide)) (by simp), hw]

/-- A word is set on a line behind a space. -/
theorem IsLine.set (hl : IsLine l) (hw : wordsOf w = [w]) : IsLine (l ++ ' ' :: w) where
  words := by simp [wordsOf_set hw]
  spaced := by
    rw [wordsOf_set hw, joinWith_append hl.words (by simp), hl.spaced, joinWith, List.append_assoc,
      List.singleton_append]

/-- A line is a paragraph. -/
theorem IsLine.paragraph (hl : IsLine l) : Paragraph l := by
  rw [← hl.spaced]
  refine paragraph_joinWith (by decide) (fun w hw => paragraph_word ?_ fun c hc => ?_) hl.words
  · rintro rfl
    have hself := wordsOf_of_mem hw
    cases hself
  · exact (mem_wordsOf_iff.mp ⟨w, hw, hc⟩).2

/-- The lines are made of words, they are no longer than the width unless they have a single word, and the first
    word of each would not have fit on the line before it. -/
structure Filled (width : Nat) (ls : List (List Char)) : Prop where
  lines : ∀ l ∈ ls, IsLine l
  fits : ∀ l ∈ ls, l.length ≤ width ∨ wordsOf l = [l]
  full : ls.IsChain fun l l' => ∀ w ∈ (wordsOf l').head?, width < l.length + 1 + w.length

/-- **Words are set on filled lines**, all of them and in their order, behind those of the line under way. -/
theorem filled_fillFrom (width : Nat) (hline : IsLine line) (hfits : line.length ≤ width ∨ wordsOf line = [line])
    (hws : ∀ w ∈ ws, wordsOf w = [w]) : Filled width (fillFrom width line ws) ∧
      (fillFrom width line ws).flatMap wordsOf = wordsOf line ++ ws ∧
      ∃ l ls, fillFrom width line ws = l :: ls ∧ (wordsOf l).head? = (wordsOf line).head? := by
  -- induction on the filling: nothing left, the next word still fits, or it starts a line of its own
  fun_induction fillFrom width line ws with
  | case1 line =>
    exact ⟨⟨by simpa using hline, by simpa using hfits, .singleton _⟩, by simp, line, [], rfl, rfl⟩
  | case2 line w ws hroom ih =>
    obtain ⟨hw, hrest⟩ := List.forall_mem_cons.mp hws
    have hlength : (line ++ ' ' :: w).length ≤ width := by
      rw [List.length_append, List.length_cons]
      omega
    obtain ⟨hfilled, hwords, l, ls, heq, hhead⟩ := ih (hline.set hw) (.inl hlength) hrest
    -- the line grew, so its first word is the same and it is as full as before
    refine ⟨hfilled, by rw [hwords, wordsOf_set hw, List.append_assoc]; rfl, l, ls, heq, ?_⟩
    rw [hhead, wordsOf_set hw, List.head?_append_of_ne_nil _ hline.words]
  | case3 line w ws hroom ih =>
    obtain ⟨hw, hrest⟩ := List.forall_mem_cons.mp hws
    obtain ⟨⟨hlines, hwidths, hfull⟩, hwords, l, ls, heq, hhead⟩ := ih (isLine_word hw) (.inr hw) hrest
    refine ⟨⟨List.forall_mem_cons.mpr ⟨hline, hlines⟩, List.forall_mem_cons.mpr ⟨hfits, hwidths⟩, ?_⟩, ?_,
      line, _, rfl, rfl⟩
    -- the word that did not fit begins the next line, so the line before it is full
    · rw [heq] at hfull ⊢
      refine .cons_cons (fun v hv => ?_) hfull
      rw [hhead, hw] at hv
      cases hv
      omega
    · rw [List.flatMap_cons, hwords, hw]
      rfl

/-- **Words are set on filled lines**, all of them and in their order. -/
theorem filled_fillWords (hne : ws ≠ []) (hws : ∀ w ∈ ws, wordsOf w = [w]) :
    fillWords width ws ≠ [] ∧ Filled width (fillWords width ws) ∧ (fillWords width ws).flatMap wordsOf = ws := by
  obtain ⟨w, ws, rfl⟩ := List.exists_cons_of_ne_nil hne
  obtain ⟨hw, hrest⟩ := List.forall_mem_cons.mp hws
  obtain ⟨hfilled, hwords, -⟩ := filled_fillFrom width (isLine_word hw) (.inr hw) hrest
  refine ⟨fillFrom_ne_nil width w ws, hfilled, ?_⟩
  rw [fillWords, hwords, hw]
  rfl

/-! ### Groups of lines -/

/-- The lines between empty ones; none if there are no lines. -/
def lineGroups (ls : List (List Char)) : List (List (List Char)) :=
  if ls = [] then [] else ls.splitOn []

theorem separateGroups_eq (gs : List (List (List Char))) : separateGroups gs = [[]].intercalate gs := by
  fun_induction separateGroups gs with
  | case1 => rfl
  | case2 g => simp
  | case3 g gs hgs ih =>
    obtain ⟨g', gs, rfl⟩ := List.exists_cons_of_ne_nil hgs
    rw [ih, List.intercalate_cons_cons, List.append_assoc]
    rfl

theorem separateGroups_ne_nil (hgs : ∀ g ∈ gs, g ≠ []) (hne : gs ≠ []) : separateGroups gs ≠ [] := by
  fun_cases separateGroups gs with
  | case1 => exact absurd rfl hne
  | case2 g => exact hgs g List.mem_cons_self
  | case3 g gs hrest => simp

/-- **The groups of lines are found between the empty ones.** -/
theorem lineGroups_separateGroups (hgs : ∀ g ∈ gs, g ≠ [] ∧ [] ∉ g) : lineGroups (separateGroups gs) = gs := by
  unfold lineGroups
  by_cases hne : gs = []
  · rw [hne]
    rfl
  · rw [if_neg (separateGroups_ne_nil (fun g hg => (hgs g hg).1) hne), separateGroups_eq,
      List.splitOn_intercalate [] (fun g hg => (hgs g hg).2) hne]

/-- The words of separated groups are those of the groups. -/
theorem words_separateGroups (gs : List (List (List Char))) :
    (separateGroups gs).flatMap wordsOf = gs.flatMap fun g => g.flatMap wordsOf := by
  fun_induction separateGroups gs with
  | case1 => rfl
  | case2 g => simp
  | case3 g gs hgs ih =>
    rw [List.flatMap_append, List.flatMap_cons, List.flatMap_cons, ih]
    rfl

/-- **The paragraphs of separated groups** are the groups, with the lines joined. -/
theorem parted_joinWith (hgs : ∀ g ∈ gs, g ≠ [] ∧ ∀ l ∈ g, Paragraph l) :
    Parted (joinWith ['\n'] (separateGroups gs)) (gs.map (joinWith ['\n'])) := by
  fun_induction separateGroups gs with
  | case1 => exact .nil (by simp [joinWith])
  | case2 g =>
    obtain ⟨hne, hlines⟩ := hgs g List.mem_cons_self
    have hparagraph : Paragraph (joinWith ['\n'] g) := paragraph_joinWith (by decide) hlines hne
    have hparted : Parted (joinWith ['\n'] g ++ []) [joinWith ['\n'] g] :=
      .start hparagraph (.nil (by simp)) (by simp)
    simpa using hparted
  | case3 g gs hrest ih =>
    obtain ⟨⟨hne, hlines⟩, hgs⟩ := List.forall_mem_cons.mp hgs
    have hlater : separateGroups gs ≠ [] := separateGroups_ne_nil (fun g hg => (hgs g hg).1) hrest
    -- between two paragraphs stands an empty line, hence two line feeds
    have hjoin : joinWith ['\n'] (g ++ [] :: separateGroups gs)
        = joinWith ['\n'] g ++ (['\n', '\n'] ++ joinWith ['\n'] (separateGroups gs)) := by
      rw [joinWith_append hne (by simp), joinWith_cons hlater]
      simp
    have hfeeds : ∀ c ∈ ['\n', '\n'], isBlank c = true :=
      List.forall_mem_cons.mpr ⟨by decide, blank_of_letter (by decide)⟩
    -- the paragraph ends where its lines end, and the blank behind it belongs to the gap
    rw [hjoin, List.map_cons]
    refine .start (paragraph_joinWith (by decide) hlines hne) ((ih hgs).gap_append hfeeds) fun _ => ?_
    rw [List.takeWhile_append_of_pos hfeeds, List.count_append]
    exact Nat.le_add_right 2 _

/-! ### The lines of a text -/

/-- The lines of a text are those of groups, one for the words of each paragraph. -/
theorem wrapChars_groups (width : Nat) (cs : List Char) : ∃ gs, (∀ g ∈ gs, g ≠ [] ∧ Filled width g) ∧
    gs.map (fun g => g.flatMap wordsOf) = paragraphWords cs ∧ wrapChars width cs = separateGroups gs := by
  have hfilled : ∀ ws ∈ paragraphWords cs, fillWords width ws ≠ [] ∧ Filled width (fillWords width ws) ∧
      (fillWords width ws).flatMap wordsOf = ws := by
    intro ws hws
    obtain ⟨hmap, hne⟩ := List.mem_filter.mp hws
    obtain ⟨chunk, -, rfl⟩ := List.mem_map.mp hmap
    exact filled_fillWords (by simpa using hne) fun w hw => wordsOf_of_mem hw
  refine ⟨(paragraphWords cs).map (fillWords width), fun g hg => ?_, ?_, rfl⟩
  · obtain ⟨ws, hws, rfl⟩ := List.mem_map.mp hg
    exact ⟨(hfilled ws hws).1, (hfilled ws hws).2.1⟩
  · rw [List.map_map]
    exact (List.map_congr_left fun ws hws => (hfilled ws hws).2.2).trans (List.map_id _)

/-- **Lines are filled greedily and lose nothing.**  A text has paragraphs, and lines for any width with room.
    The lines have the words of the text; they fall into one group for each paragraph, with its words, and an
    empty line stands between two groups and nowhere else; a line is no longer than the width or a single word;
    and within a group the first word of a line would not have fit on the line before.  The text of these lines
    is set on the same lines again. -/
theorem wrap_is_greedy (text : String) {width : Int} (hwidth : 1 ≤ width) :
    ∃ ps lines, Parted text.toList ps ∧ wrap? width text = some lines ∧
      lines.flatMap wordsOf = wordsOf text.toList ∧
      (lineGroups lines).map (fun g => g.flatMap wordsOf) = ps.map wordsOf ∧
      (∀ g ∈ lineGroups lines, g ≠ [] ∧ Filled width.toNat g) ∧
      (∀ l ∈ lines, (l.length : Int) ≤ width ∨ wordsOf l = [l]) ∧
      wrap? width (String.ofList (joinWith ['\n'] lines)) = some lines := by
  obtain ⟨ps, hparted⟩ := exists_parted text.toList
  have hroom (s : String) : wrap? width s = some (wrapChars width.toNat s.toList) := by
    have hpositive : ¬ width ≤ 0 := by omega
    simp [wrap?, hpositive]
  obtain ⟨gs, hgs, hwords, hlines⟩ := wrapChars_groups width.toNat text.toList
  have hfound : lineGroups (wrapChars width.toNat text.toList) = gs := by
    rw [hlines]
    exact lineGroups_separateGroups fun g hg => ⟨(hgs g hg).1, fun hmem => ((hgs g hg).2.lines _ hmem).words rfl⟩
  rw [paragraphWords_eq hparted] at hwords
  refine ⟨ps, _, hparted, hroom text, ?_, ?_, ?_, ?_, ?_⟩
  · rw [hlines, words_separateGroups, hparted.words, List.flatMap_def, hwords, List.flatMap_def]
  · rw [hfound, hwords]
  · rw [hfound]
    exact hgs
  · intro l hl
    rw [hlines] at hl
    rcases mem_separateGroups l hl with rfl | ⟨g, hg, hmem⟩
    · exact .inl (by simp; omega)
    · exact ((hgs g hg).2.fits l hmem).imp (fun hle => by omega) id
  · -- the paragraphs of the lines have the same words
    rw [hroom, String.toList_ofList]
    have hagain := parted_joinWith fun g hg => ⟨(hgs g hg).1, fun l hl => ((hgs g hg).2.lines l hl).paragraph⟩
    have hsame : paragraphWords (joinWith ['\n'] (wrapChars width.toNat text.toList))
        = paragraphWords text.toList := by
      rw [hlines, paragraphWords_eq hagain, paragraphWords_eq hparted, ← hwords, List.map_map]
      exact List.map_congr_left fun g _ => wordsOf_joinWith (blank_of_letter (by decide)) (by simp) g
    rw [wrapChars, hsame, wrapChars]

/-- Two paragraphs with white space of all kinds between them, one with a word that is longer than the width. -/
theorem wrap_is_greedy_for_two_paragraphs :
    let text := " One two\n three.\n \n\tIncomprehensible,\r\nis it? "
    let lines := ["One two", "three.", "", "Incomprehensible,", "is it?"].map String.toList
    (1 : Int) ≤ 7 ∧ wrap? 7 text = some lines ∧ ∃ ps, Parted text.toList ps ∧
      (lineGroups lines).map (fun g => g.flatMap wordsOf) = ps.map wordsOf ∧
      (∀ g ∈ lineGroups lines, g ≠ [] ∧ Filled 7 g) ∧
      wrap? 7 (String.ofList (joinWith ['\n'] lines)) = some lines := by
  intro text lines
  have hlines : wrap? 7 text = some lines := by decide
  obtain ⟨ps, lines', hparted, hwrap, -, hgroups, hfilled, -, hagain⟩ :=
    wrap_is_greedy text (by decide : (1 : Int) ≤ 7)
  obtain rfl : lines = lines' := Option.some.inj (hlines.symm.trans hwrap)
  exact ⟨by decide, hlines, ps, hparted, hgroups, hfilled, hagain⟩

end Docsmith.Text
