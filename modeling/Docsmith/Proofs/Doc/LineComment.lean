import Docsmith.Language.Basic
import Docsmith.Proofs.Source.Rows
import Docsmith.Proofs.Text.Fill
import Mathlib.Data.List.Basic

namespace Docsmith

/-!
# Documentation stays in its comments

Whatever a text says, every line of it is written behind an indent and a marker, and nothing in it can end such a
line before its line feed; only an indent may itself hold characters that end lines.  The lines can be read off the
comments again, and what stands behind the comments begins on a line of its own.

* `Doc.lineTerminators`: where lines may end.
* `Doc.splitOn_lineComment`: the lines of a block of comments.
* `Doc.uncomment?`, `Doc.uncomment?_commentLine`: what a comment says.
* `Doc.commentLine_closed`: no line ends behind the indent of a comment.
* `Doc.Comments`, `Doc.comments_lineComment`: comments hold the lines of a text.
* `Bytes.beforeOnLine_append`: the line that an insertion ends on.
* `documentation_stays_in_comments`: all of this for the slots of a language.
* `indent_ends_a_line`: an indent that ends lines.
-/

namespace Doc

open Text

variable {marker indent line : List Char} {lines : List (List Char)} {c : Char}

/-- The characters at which a line may end: line feed, carriage return, vertical tab, form feed, the separators
    of files, groups and records, next line, and the separators of lines and paragraphs. -/
def lineTerminators : List Char :=
  ['\n', '\r', '\x0b', '\x0c', '\x1c', '\x1d', '\x1e', '\x85', '\u2028', '\u2029']

/-- What a line comment says: what is left without the indent, the marker and one space behind it. -/
def uncomment? (marker indent row : List Char) : Option (List Char) :=
  if (indent ++ marker).isPrefixOf row then
    match row.drop (indent ++ marker).length with
    | ' ' :: line => some line
    | line => some line
  else none

/-- A commented line is the indent and the marker, and then the line. -/
theorem commentLine_eq (marker indent line : List Char) :
    commentLine marker indent line = indent ++ marker ++ if line.isEmpty then [] else ' ' :: line := by
  unfold commentLine
  split <;> simp

/-- **A comment says the line that was written.** -/
theorem uncomment?_commentLine (marker indent line : List Char) :
    uncomment? marker indent (commentLine marker indent line) = some line := by
  rw [commentLine_eq, uncomment?, if_pos (by simp), List.drop_left]
  cases line <;> rfl

/-- **The lines of a block of comments** are the commented lines, each with a line feed behind it. -/
theorem splitOn_lineComment (hlines : ∀ line ∈ lines, '\n' ∉ commentLine marker indent line) :
    (lineComment marker indent lines).splitOn '\n' = lines.map (commentLine marker indent) ++ [[]] := by
  induction lines with
  | nil => rfl
  | cons line lines ih =>
    obtain ⟨hline, hrest⟩ := List.forall_mem_cons.mp hlines
    have hsplit : lineComment marker indent (line :: lines)
        = commentLine marker indent line ++ '\n' :: lineComment marker indent lines := by
      simp [lineComment]
    rw [hsplit, List.splitOn_append_cons_self, List.splitOn_eq_singleton hline, ih hrest]
    rfl

/-- **No line ends behind the indent of a comment.** -/
theorem commentLine_closed (hmarker : ∀ c ∈ marker, isBlank c = false)
    (hline : ∀ c ∈ line, c = ' ' ∨ isBlank c = false) :
    ∃ said, commentLine marker indent line = indent ++ said ∧ marker <+: said ∧
      ∀ c ∈ said, c ∉ lineTerminators := by
  have hends : (lineTerminators.all fun c => c != ' ' && isBlank c) = true := by decide
  refine ⟨marker ++ if line.isEmpty then [] else ' ' :: line, ?_, List.prefix_append _ _,
    fun c hc hterminator => ?_⟩
  · rw [commentLine_eq, List.append_assoc]
  have hplain : c = ' ' ∨ isBlank c = false := by
    split at hc <;> grind
  obtain ⟨hspace, hblank⟩ : c ≠ ' ' ∧ isBlank c = true := by
    simpa using List.all_eq_true.mp hends c hterminator
  rcases hplain with rfl | hdark
  · exact hspace rfl
  · rw [hdark] at hblank
    cases hblank

/-- A block of comments ends with a line feed. -/
theorem lineComment_concat (hlines : lines ≠ []) : ∃ body, lineComment marker indent lines = body ++ ['\n'] := by
  obtain ⟨body, line, rfl⟩ := (List.eq_nil_or_concat' lines).resolve_left hlines
  refine ⟨lineComment marker indent body ++ commentLine marker indent line, ?_⟩
  simp [lineComment]

/-- The lines of a text, with the characters that they have. -/
theorem plain_of_wrap? {width : Int} {text : String} (h : wrap? width text = some lines) :
    ∀ line ∈ lines, ∀ c ∈ line, c = ' ' ∨ isBlank c = false := by
  unfold wrap? at h
  split at h
  · cases h
  · cases h
    exact fun line hline c hc => plain_of_mem_wrapChars hline hc

/-- The comments of a text: they stand on lines of their own, and they say the lines of the text.  Each has the
    marker behind the indent, and behind the indent it has no character that may end a line; so besides the line
    feeds there are only those of the indent. -/
structure Comments (marker indent : List Char) (lines : List (List Char)) (comment : List Char) : Prop where
  rows : ∃ rows, comment.splitOn '\n' = rows ++ [[]] ∧ rows.map (uncomment? marker indent) = lines.map some ∧
    ∀ row ∈ rows, ∃ said, row = indent ++ said ∧ marker <+: said ∧ ∀ c ∈ said, c ∉ lineTerminators
  closed : ∀ c ∈ comment, c ∈ lineTerminators → c = '\n' ∨ c ∈ indent

/-- **Line comments hold the lines of a text.** -/
theorem comments_lineComment {width : Int} {text : String}
    (hmarker : ∀ c ∈ marker, isBlank c = false) (hindent : '\n' ∉ indent)
    (hlines : wrap? width text = some lines) :
    Comments marker indent lines (lineComment marker indent lines) := by
  -- a terminator is in no line, so one that is there is the feed behind a line or in the indent
  have hrows : ∀ line ∈ lines, ∃ said, commentLine marker indent line = indent ++ said ∧ marker <+: said ∧
      ∀ c ∈ said, c ∉ lineTerminators :=
    fun line hline => commentLine_closed hmarker (plain_of_wrap? hlines line hline)
  refine ⟨⟨lines.map (commentLine marker indent), splitOn_lineComment fun line hline hfeed => ?_, ?_,
    List.forall_mem_map.mpr hrows⟩, fun c hc hterminator => ?_⟩
  · obtain ⟨said, hsaid, -, hclosed⟩ := hrows line hline
    rw [hsaid] at hfeed
    exact (List.mem_append.mp hfeed).elim hindent fun hmem => hclosed _ hmem (by decide)
  · rw [List.map_map]
    exact List.map_congr_left fun line _ => uncomment?_commentLine marker indent line
  · obtain ⟨line, hline, hmem⟩ := List.mem_flatMap.mp hc
    obtain ⟨said, hsaid, -, hclosed⟩ := hrows line hline
    rw [hsaid] at hmem
    rcases List.mem_append.mp hmem with hbody | hfeed
    · exact .inr ((List.mem_append.mp hbody).resolve_right fun hin => hclosed c hin hterminator)
    · exact .inl (List.mem_singleton.mp hfeed)

end Doc

/-! ### Bytes -/

namespace Text

variable {cs : List Char}

theorem encodeChars_append (a b : List Char) : encodeChars (a ++ b) = encodeChars a ++ encodeChars b :=
  List.flatMap_append

/-- Only a line feed is encoded with the byte of a line feed. -/
theorem newline_mem_utf8EncodeChar {c : Char} (h : Bytes.newline ∈ String.utf8EncodeChar c) : c = '\n' := by
  have hbyte : ∃ b ∈ String.utf8EncodeChar c, b.toNat = 10 := ⟨_, h, rfl⟩
  have hcode : c.val.toNat = 10 := by
    have hval : c.toNat = c.val.toNat := rfl
    unfold String.utf8EncodeChar at hbyte
    dsimp only at hbyte
    -- the bytes of a character of several ones are not those of ASCII
    split at hbyte
    · simp at hbyte
      omega
    · split at hbyte
      · simp at hbyte
        omega
      · split at hbyte <;> (simp at hbyte; omega)
  exact Char.ext (UInt32.toNat_inj.mp hcode)

theorem newline_not_mem_encodeChars (h : '\n' ∉ cs) : Bytes.newline ∉ encodeChars cs := by
  intro hmem
  obtain ⟨c, hc, hbyte⟩ := List.mem_flatMap.mp hmem
  exact h (newline_mem_utf8EncodeChar hbyte ▸ hc)

end Text

/-- **What is inserted up to a line feed** leaves what follows it before the offset on the line. -/
theorem Bytes.beforeOnLine_append {line : Bytes} (hline : newline ∉ line) (before after : Bytes) :
    (before ++ newline :: line ++ after).beforeOnLine (before ++ newline :: line).length = line := by
  have hother : ∀ b ∈ line.reverse, (b != newline) = true := by
    intro b hb
    rw [bne_iff_ne]
    exact fun heq => hline (heq ▸ List.mem_reverse.mp hb)
  have hstart : throughLastNewline (before ++ newline :: line) = before.length + 1 := by
    rw [throughLastNewline, List.reverse_append, List.reverse_cons, List.append_assoc,
      List.dropWhile_append_of_pos hother, List.singleton_append, List.dropWhile_cons_of_neg (by simp)]
    simp
  have hsplit : before ++ newline :: line = (before ++ [newline]) ++ line := by simp
  rw [beforeOnLine, lineStart_nat, slice_nat, List.take_left, hstart, hsplit]
  exact List.drop_left' (by simp)

/-- So does a text that is inserted. -/
theorem Bytes.beforeOnLine_encodeChars (tail : List Char) (htail : '\n' ∉ tail) (front : List Char)
    (before after : Bytes) : (before ++ Text.encodeChars (front ++ '\n' :: tail) ++ after).beforeOnLine
      (before ++ Text.encodeChars (front ++ '\n' :: tail)).length = Text.encodeChars tail := by
  have hbytes : before ++ Text.encodeChars (front ++ '\n' :: tail)
      = (before ++ Text.encodeChars front) ++ newline :: Text.encodeChars tail := by
    rw [Text.encodeChars_append, List.append_assoc]
    rfl
  rw [hbytes]
  exact beforeOnLine_append (Text.newline_not_mem_encodeChars htail) _ after

/-! ### Slots -/

/-- A slot for line comments is rendered with the marker of the language. -/
theorem Language.renderDoc_of_line {l : Language} {s : DocSlot} {marker text : String}
    (hl : (l = .go ∧ marker = "//") ∨ (l = .python ∧ marker = "#")) (hstyle : s.style = .line) :
    l.renderDoc s text = s.renderLine marker text := by
  rcases hl with ⟨rfl, rfl⟩ | ⟨rfl, rfl⟩
  · rfl
  · show Python.renderDoc s text = _
    rw [Python.renderDoc, hstyle]

/-- **Documentation stays in its comments.**  For any indent without a line feed, the comments of any text hold
    its lines and nothing that ends a line early, unless it is in the indent.  A slot for line comments of a
    language is rendered as these comments, on a line of its own if code stands before the declaration; and what
    comes behind the slot begins on a fresh line, behind the indent if code stood before it. -/
theorem documentation_stays_in_comments {indent : String} (text : String) (hindent : '\n' ∉ indent.toList) :
    (∀ marker ∈ ["//", "#"], ∀ (width : Int) (lines : List (List Char)), Text.wrap? width text = some lines →
      Doc.Comments marker.toList indent.toList lines (Doc.lineComment marker.toList indent.toList lines)) ∧
    ∀ (l : Language) (marker : String) (s : DocSlot), (l = .go ∧ marker = "//") ∨ (l = .python ∧ marker = "#") →
      s.style = .line → s.indent = indent → Text.isBlankText text = false →
      ∃ lines, Text.wrap? Doc.commentWidth text = some lines ∧
        let comment := Doc.lineComment marker.toList indent.toList lines
        l.renderDoc s text = (if s.inline then Text.encodeChars ('\n' :: (comment ++ indent.toList))
          else Text.encodeChars comment) ∧
        ∀ before after : Bytes, (before ++ l.renderDoc s text ++ after).beforeOnLine
          (before ++ l.renderDoc s text).length = if s.inline then Text.encode indent else [] := by
  have hmarkers : (["//", "#"].all fun marker => marker.toList.all fun c => !Text.isBlank c) = true := by decide
  refine ⟨fun marker hmarker width lines hlines => Doc.comments_lineComment (fun c hc => ?_) hindent hlines, ?_⟩
  · simpa using List.all_eq_true.mp (List.all_eq_true.mp hmarkers marker hmarker) c hc
  intro l marker s hl hstyle hsame htext
  refine ⟨_, rfl, ?_⟩
  intro comment
  have hrender : l.renderDoc s text = if s.inline then Text.encodeChars ('\n' :: (comment ++ indent.toList))
      else Text.encodeChars comment := by
    rw [Language.renderDoc_of_line hl hstyle, DocSlot.renderLine, htext, hsame]
    rfl
  refine ⟨hrender, fun before after => ?_⟩
  -- the comments end with a line feed
  obtain ⟨c, hc, hdark⟩ : ∃ c ∈ text.toList, Text.isBlank c = false := by
    simpa [Text.isBlankText] using htext
  obtain ⟨body, hbody⟩ : ∃ body, comment = body ++ ['\n'] :=
    Doc.lineComment_concat (Text.wrapChars_ne_nil Doc.commentWidth hc hdark)
  rw [hrender, hbody]
  cases s.inline with
  | true =>
    have hsplit : '\n' :: (body ++ ['\n'] ++ indent.toList) = '\n' :: body ++ '\n' :: indent.toList := by simp
    rw [if_pos rfl, if_pos rfl, hsplit]
    exact Bytes.beforeOnLine_encodeChars _ hindent _ before after
  | false => exact Bytes.beforeOnLine_encodeChars [] (by simp) body before after

/-- A text of three lines, one of them empty, with separators in it, and a slot behind other code. -/
theorem documentation_stays_in_comments_inline :
    let text := "One\u2028two.\n\n\x0cx = 1\r# y"
    let lines := ["One two.", "", "x = 1 # y"].map String.toList
    let s : DocSlot := { start := 6, stop := 7, indent := "  ", style := .line, inline := true }
    let rendered := Language.python.renderDoc s text
    let before : Bytes := Text.encode "a = 1;"
    '\n' ∉ s.indent.toList ∧ Text.wrap? 77 text = some lines ∧
      Doc.Comments "#".toList s.indent.toList lines (Doc.lineComment "#".toList s.indent.toList lines) ∧
      s.style = .line ∧ Text.isBlankText text = false ∧
      rendered = Text.encode "\n  # One two.\n  #\n  # x = 1 # y\n  " ∧
      ∀ after : Bytes, (before ++ rendered ++ after).beforeOnLine (before ++ rendered).length
        = Text.encode "  " := by
  intro text lines s rendered before
  have hindent : '\n' ∉ s.indent.toList := by decide
  have hlines : Text.wrap? 77 text = some lines := by decide
  obtain ⟨hcomments, hslots⟩ := documentation_stays_in_comments text hindent
  obtain ⟨_, -, -, hfresh⟩ := hslots .python "#" s (.inr ⟨rfl, rfl⟩) rfl rfl (by decide)
  exact ⟨hindent, hlines, hcomments "#" (by decide) 77 lines hlines, rfl, by decide, by decide,
    fun after => (hfresh before after).trans (if_pos rfl)⟩

/-- An indent that is a form feed, as a line of code may have it, is in the comments, and ends a line in them. -/
theorem indent_ends_a_line :
    let indent := asciiText (Bytes.indentOf (Text.encode "a = 1\n\x0cx = 2\n") 7)
    let comment := Doc.lineComment "//".toList indent.toList ["a".toList]
    indent = "\x0c" ∧ Text.isBlankText indent = true ∧ '\n' ∉ indent.toList ∧
      Text.wrap? Doc.commentWidth "a" = some ["a".toList] ∧
      ∃ c ∈ comment, c ∈ Doc.lineTerminators ∧ c ≠ '\n' := by
  intro indent comment
  have hindent : indent = "\x0c" := by decide
  have hcomment : comment = "\x0c// a\n".toList := by
    show Doc.lineComment "//".toList indent.toList _ = _
    rw [hindent]
    decide
  rw [hcomment, hindent]
  exact ⟨rfl, by decide, by decide, by decide, '\x0c', by decide, by decide, by decide⟩

end Docsmith
