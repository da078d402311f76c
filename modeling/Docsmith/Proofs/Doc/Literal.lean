import Docsmith.Proofs.Doc.Escape
import Docsmith.Proofs.Files.Path
import Docsmith.Proofs.Text.Fill

namespace Docsmith

/-!
# Documentation is read back from its literal

The lines of a text are written into a string literal, on one line or on several.  They are read back from
it: the literal ends at its closing quotes, and nothing is lost.  The exception is a line on its own that
ends in quotes of which the last one is escaped already.

* `Doc.linesOf?`, `Doc.readDocstring?`: the lines that a literal holds.
* `Doc.literalText?_lines`, `Doc.linesOf?_continuations`: what is written on several lines.
* `Doc.LosesQuote`: the exception.
* `Doc.docstring_reads_back`: documentation is read back if and only if this is not the case.
-/

namespace Doc

open Docsmith.Path Text

variable {indent line t : List Char}

/-! ### A literal on several lines -/

theorem escapeLine_eq_nil : escapeLine line = [] ↔ line = [] := by
  constructor
  · intro h
    match line with
    | [] => rfl
    | c :: rest =>
      by_cases hthree : c = '"' ∧ ['"', '"'] <+: rest
      · obtain ⟨rfl, more, rfl⟩ := hthree
        cases h
      · by_cases hslash : c = '\\'
        · subst hslash
          cases h
        · rw [escapeLine_cons hslash fun hc hrest => hthree ⟨hc, hrest⟩] at h
          cases h
  · rintro rfl
    rfl

/-- Characters that are neither quotes nor backslashes are read as they are. -/
theorem literalText?_plains {s : List Char} (hs : ∀ c ∈ s, c ≠ '\\' ∧ c ≠ '"') (t : List Char) :
    literalText? (s ++ t) = behind s (literalText? t) := by
  induction s with
  | nil => exact (behind_nil _).symm
  | cons c s ih =>
    obtain ⟨hslash, hquote⟩ := hs c List.mem_cons_self
    rw [List.cons_append, literalText?_plain _ hslash hquote,
      ih fun d hd => hs d (List.mem_cons_of_mem _ hd), ← behind_append]
    rfl

/-- A continuation line is read back if no quote is behind it. -/
theorem literalText?_continuation (hindent : ∀ c ∈ indent, c ≠ '\\' ∧ c ≠ '"') (line : List Char)
    (ht : t.head? ≠ some '"') :
    literalText? (continuation indent (escapeLine line) ++ t)
      = behind (continuation indent line) (literalText? t) := by
  have hfeed : ∀ c ∈ ['\n'], c ≠ '\\' ∧ c ≠ '"' := by simp
  unfold continuation
  by_cases hline : line = []
  · subst hline
    exact literalText?_plains hfeed t
  · rw [if_neg (by simpa [escapeLine_eq_nil] using hline), if_neg (by simpa using hline)]
    have hlead : ∀ c ∈ '\n' :: indent, c ≠ '\\' ∧ c ≠ '"' := by
      simpa using hindent
    rw [List.append_assoc, literalText?_plains hlead, literalText?_escapeLine _ _ (.inr ht), behind_append]

/-- Behind a line there is a line feed. -/
theorem head_literalLines (lines : List (List Char)) :
    ((lines.map escapeLine).flatMap (continuation indent) ++ '\n' :: indent ++ tripleQuote).head?
      ≠ some '"' := by
  cases lines with
  | nil => simp
  | cons next lines =>
    simp only [List.map_cons, List.flatMap_cons, continuation]
    split <;> simp

/-- The lines of a literal are read back. -/
theorem literalText?_lines (hindent : ∀ c ∈ indent, c ≠ '\\' ∧ c ≠ '"') (lines : List (List Char)) :
    literalText? ((lines.map escapeLine).flatMap (continuation indent) ++ '\n' :: indent ++ tripleQuote)
      = some (lines.flatMap (continuation indent) ++ '\n' :: indent, []) := by
  induction lines with
  | nil =>
    have hlead : ∀ c ∈ '\n' :: indent, c ≠ '\\' ∧ c ≠ '"' := by
      simpa using hindent
    rw [List.map_nil, List.flatMap_nil, List.nil_append, literalText?_plains hlead]
    simp [tripleQuote, literalText?, behind]
  | cons line lines ih =>
    rw [List.map_cons, List.flatMap_cons, List.append_assoc, List.append_assoc,
      ← List.append_assoc _ ('\n' :: indent),
      literalText?_continuation hindent line (head_literalLines lines), ih]
    simp [behind]

/-! ### Lines of a text -/

/-- A continuation line without the indent before it; an empty one has none. -/
def unindent? (indent line : List Char) : Option (List Char) :=
  if line.isEmpty then some []
  else if indent.isPrefixOf line then some (line.drop indent.length) else none

/-- The lines of the text of a literal: one, or those before the closing line, which is the indent. -/
def linesOf? (indent text : List Char) : Option (List (List Char)) :=
  match splitOn '\n' text with
  | first :: next :: rest =>
    if (next :: rest).getLast? = some indent then
      ((next :: rest).dropLast.mapM (unindent? indent)).map (first :: ·)
    else none
  | lines => some lines

/-- The lines of documentation in a string literal: the closing quotes end it, escapes stand for what they
    escape, and the layout is taken away. -/
def readDocstring? (indent : List Char) : List Char → Option (List (List Char))
  | '"' :: '"' :: '"' :: rest =>
    match literalText? rest with
    | some (text, []) => linesOf? indent text
    | _ => none
  | _ => none

/-- A continuation line behind its line feed. -/
def indented (indent line : List Char) : List Char := if line.isEmpty then [] else indent ++ line

theorem continuation_eq (indent line : List Char) :
    continuation indent line = '\n' :: indented indent line := by
  unfold continuation indented
  split <;> rfl

theorem unindent?_indented (indent line : List Char) :
    unindent? indent (indented indent line) = some line := by
  unfold unindent? indented
  by_cases hline : line = []
  · subst hline
    rfl
  · simp [hline]

/-- The pieces of a text in the layout of a literal. -/
theorem splitOn_continuations {first : List Char} {lines : List (List Char)} (hfirst : '\n' ∉ first)
    (hlines : ∀ line ∈ lines, '\n' ∉ line) (hindent : '\n' ∉ indent) :
    splitOn '\n' (first ++ (lines.flatMap (continuation indent) ++ '\n' :: indent))
      = first :: (lines.map (indented indent) ++ [indent]) := by
  induction lines generalizing first with
  | nil =>
    rw [List.flatMap_nil, List.nil_append, splitOn_append, splitOn_of_not_mem hfirst,
      splitOn_of_not_mem hindent]
    rfl
  | cons line lines ih =>
    -- an indented line has no feed of its own, so the next one to split at is that of the line below
    have hline : '\n' ∉ indented indent line := by
      unfold indented
      split
      · simp
      · exact fun hmem => (List.mem_append.mp hmem).elim hindent (hlines line List.mem_cons_self)
    rw [List.flatMap_cons, continuation_eq, List.append_assoc, List.cons_append, splitOn_append,
      splitOn_of_not_mem hfirst, ih hline fun l hl => hlines l (List.mem_cons_of_mem _ hl)]
    rfl

/-- The lines of a text in the layout of a literal. -/
theorem linesOf?_continuations {first : List Char} {lines : List (List Char)} (hfirst : '\n' ∉ first)
    (hlines : ∀ line ∈ lines, '\n' ∉ line) (hindent : '\n' ∉ indent) :
    linesOf? indent (first ++ (lines.flatMap (continuation indent) ++ '\n' :: indent))
      = some (first :: lines) := by
  -- the written lines all carry the indent, so taking it off again never fails: induction on the lines
  have heach : (lines.map (indented indent)).mapM (unindent? indent) = some lines := by
    induction lines with
    | nil => rfl
    | cons line lines ih =>
      have hrest := ih fun l hl => hlines l (List.mem_cons_of_mem _ hl)
      simp [unindent?_indented, hrest]
  unfold linesOf?
  rw [splitOn_continuations hfirst hlines hindent]
  -- a text of one line is written without continuations, and `getLast?` then looks at the first line itself
  cases lines with
  | nil => simp
  | cons line lines =>
    rw [List.map_cons, List.cons_append]
    dsimp only
    rw [← List.cons_append, ← List.map_cons, List.getLast?_concat, if_pos rfl, List.dropLast_concat,
      heach]
    rfl

/-! ### Documentation -/

/-- The lines of documentation are one that fits the width in a literal and that quotes end, all of which
    are escaped three by three. -/
def LosesQuote (width : Nat) (indent : List Char) (lines : List (List Char)) : Prop :=
  ∃ line, lines = [line] ∧ indent.length + (escapeLine line).length + 6 ≤ width + 3 ∧ EndsEscaped line

/-- A literal is read from behind its opening quotes. -/
theorem readDocstring?_of_text {body text : List Char} (h : literalText? body = some (text, [])) :
    readDocstring? indent (tripleQuote ++ body) = linesOf? indent text := by
  show readDocstring? indent ('"' :: '"' :: '"' :: body) = _
  rw [readDocstring?, h]

/-- What is read is all that is behind the opening quotes. -/
theorem text_of_readDocstring? {literal : List Char} {lines : List (List Char)}
    (h : readDocstring? indent literal = some lines) :
    ∃ text, literalText? (literal.drop 3) = some (text, []) := by
  unfold readDocstring? at h
  split at h
  · split at h
    · rename_i hread
      exact ⟨_, hread⟩
    · cases h
  · cases h

/-- What is written on one line. -/
theorem docstring_of_fits {width : Nat}
    (hfits : indent.length + (escapeLine line).length + 6 ≤ width + 3) :
    docstring width indent [line] = tripleQuote ++ (guardLastQuote (escapeLine line) ++ tripleQuote) := by
  simp [docstring, hfits]

/-- What is written on several lines. -/
theorem docstring_of_not_fits {width : Nat} {lines : List (List Char)}
    (hfits : lines = [] → ¬ indent.length + (escapeLine line).length + 6 ≤ width + 3) :
    docstring width indent (line :: lines) = tripleQuote ++ (escapeLine line ++
      ((lines.map escapeLine).flatMap (continuation indent) ++ '\n' :: indent ++ tripleQuote)) := by
  unfold docstring
  rw [List.map_cons]
  dsimp only
  rw [if_neg]
  · simp
  · simp only [Bool.and_eq_true, List.isEmpty_iff, List.map_eq_nil_iff, decide_eq_true_eq, not_and]
    exact hfits

/-- Lines that do not lose a quote are read back. -/
theorem readDocstring?_docstring (hplain : ∀ c ∈ indent, c ≠ '\\' ∧ c ≠ '"') (hindent : '\n' ∉ indent)
    {width : Nat} {lines : List (List Char)} (hne : lines ≠ []) (hlines : ∀ line ∈ lines, '\n' ∉ line)
    (hkeeps : ¬ LosesQuote width indent lines) :
    readDocstring? indent (docstring width indent lines) = some lines := by
  obtain ⟨first, rest, rfl⟩ := List.exists_cons_of_ne_nil hne
  have hfirst : '\n' ∉ first := hlines first List.mem_cons_self
  -- the branch of the writer: one short line stands between its quotes, anything else spans lines
  by_cases hfits : rest = [] ∧ indent.length + (escapeLine first).length + 6 ≤ width + 3
  · obtain ⟨rfl, hfits⟩ := hfits
    have hquotes : ¬ EndsEscaped first := fun h => hkeeps ⟨first, rfl, hfits, h⟩
    rw [docstring_of_fits hfits, readDocstring?_of_text (literalText?_guarded hquotes), linesOf?,
      splitOn_of_not_mem hfirst]
  -- over several lines the closing quotes stand below, so no escape of the last quote is needed
  · have htext : literalText? (escapeLine first ++
        ((rest.map escapeLine).flatMap (continuation indent) ++ '\n' :: indent ++ tripleQuote))
        = some (first ++ (rest.flatMap (continuation indent) ++ '\n' :: indent), []) := by
      rw [literalText?_escapeLine _ _ (.inr (head_literalLines rest)), literalText?_lines hplain]
      rfl
    rw [docstring_of_not_fits fun hrest hshort => hfits ⟨hrest, hshort⟩, readDocstring?_of_text htext,
      linesOf?_continuations hfirst (fun l hl => hlines l (List.mem_cons_of_mem _ hl)) hindent]

/-- Lines that lose a quote are in a literal that ends early. -/
theorem literalText?_of_losesQuote {width : Nat} {lines : List (List Char)}
    (hloses : LosesQuote width indent lines) :
    ∃ read, literalText? ((docstring width indent lines).drop 3) = some (read, ['"']) := by
  obtain ⟨line, rfl, hfits, hquotes⟩ := hloses
  obtain ⟨text, -, hread⟩ := literalText?_unguarded hquotes
  exact ⟨text ++ ['\\'], by rw [docstring_of_fits hfits]; exact hread⟩

/-- **Documentation is read back from its literal**, unless it loses its last quote: for every text that is
    not blank, every indent of spaces and tabs and every width, the literal ends where its closing quotes
    are, and the lines in it are those of the text.  A line on its own whose last quotes are all escaped
    three by three is the exception: there the literal ends one quote early. -/
theorem docstring_reads_back {text : String} (htext : isBlankText text = false) {indent : List Char}
    (hindent : ∀ c ∈ indent, c = ' ' ∨ c = '\t') {width : Int} (hwidth : 1 ≤ width) :
    ∃ lines, wrap? width text = some lines ∧
      (readDocstring? indent (docstring width.toNat indent lines) = some lines ↔
        ¬ LosesQuote width.toNat indent lines) ∧
      (LosesQuote width.toNat indent lines → ∃ read,
        literalText? ((docstring width.toNat indent lines).drop 3) = some (read, ['"'])) := by
  have hplain : ∀ c ∈ indent, c ≠ '\\' ∧ c ≠ '"' := by
    intro c hc
    rcases hindent c hc with rfl | rfl <;> decide
  have hfeed : '\n' ∉ indent := fun hmem => (hindent _ hmem).elim (by decide) (by decide)
  obtain ⟨x, hx, hdark⟩ : ∃ x ∈ text.toList, isBlank x = false := by
    simpa [isBlankText] using htext
  have hlines : ∀ line ∈ wrapChars width.toNat text.toList, '\n' ∉ line := fun line hline hmem =>
    (plain_of_mem_wrapChars hline hmem).elim (by decide) (by decide)
  -- the first half of the iff, which the refinement below uses twice
  have hread : ¬ LosesQuote width.toNat indent (wrapChars width.toNat text.toList) →
      readDocstring? indent (docstring width.toNat indent (wrapChars width.toNat text.toList))
        = some (wrapChars width.toNat text.toList) :=
    readDocstring?_docstring hplain hfeed (wrapChars_ne_nil _ hx hdark) hlines
  refine ⟨wrapChars width.toNat text.toList, ?_, ⟨fun hback hloses => ?_, hread⟩,
    literalText?_of_losesQuote⟩
  · have hpositive : ¬ width ≤ 0 := by omega
    simp [wrap?, hpositive]
  -- a lost quote ends the literal with one quote over, but a literal read back whole ends with none
  · obtain ⟨read, hearly⟩ := literalText?_of_losesQuote hloses
    obtain ⟨text, hwhole⟩ := text_of_readDocstring? hback
    rw [hwhole] at hearly
    cases hearly

/-- Backslashes, runs of quotes in the middle and at the end of lines, and an empty line between
    paragraphs. -/
theorem docstring_reads_back_of_two_paragraphs :
    let text := "\"\"\"\"a\\\"\"\"\n\n\\\"\" b\"\"\"\"\"\"\\"
    isBlankText text = false ∧ (∀ c ∈ ['\t'], c = ' ' ∨ c = '\t') ∧
      ∃ lines, wrap? 9 text = some lines ∧ lines.length = 4 ∧
        readDocstring? ['\t'] (docstring 9 ['\t'] lines) = some lines := by
  intro text
  have htext : isBlankText text = false := by decide +kernel
  have hindent : ∀ c ∈ ['\t'], c = ' ' ∨ c = '\t' := by simp
  obtain ⟨lines, hwrap, hread, -⟩ := docstring_reads_back htext hindent (show (1 : Int) ≤ 9 by decide)
  have hfour : (wrap? 9 text).map List.length = some 4 := by decide +kernel
  rw [hwrap] at hfour
  have hlength : lines.length = 4 := Option.some.inj hfour
  refine ⟨htext, hindent, lines, hwrap, hlength, hread.mpr ?_⟩
  -- nothing is lost where there are several lines
  rintro ⟨line, rfl, -⟩
  cases hlength

/-- A text that ends in three quotes is written into a literal that ends one quote before its end. -/
theorem docstring_loses_a_quote :
    let text := "a\"\"\""
    ∃ lines, wrap? commentWidth text = some lines ∧ LosesQuote commentWidth [] lines ∧
      literalText? ((docstring commentWidth [] lines).drop 3) = some (['a', '"', '"', '\\'], ['"']) ∧
      readDocstring? [] (docstring commentWidth [] lines) ≠ some lines := by
  intro text
  refine ⟨[['a', '"', '"', '"']], by decide +kernel, ⟨_, rfl, by decide, by decide, by decide⟩,
    by decide, by decide⟩

end Doc

end Docsmith
