import Docsmith.Text.Blank

namespace Docsmith.Text

/-!
# Paragraphs and filled lines

Documentation text is a sequence of paragraphs.  Each is filled: its words are set on lines as
long as they fit the width, and a word longer than the width gets a line of its own.

* `paragraphChunks`: the pieces between blank lines.
* `paragraphs`: the paragraphs, with single spaces between words.
* `fillWords`: the greedy fill of a list of words.
* `wrapChars`, `wrap?`: the lines of a text, with an empty line between two paragraphs.
-/

/-- The rest of a text after a paragraph break that starts at its first character: a line feed,
    blanks, and the last line feed among them. -/
def afterBreak? : List Char → Option (List Char)
  | '\n' :: rest =>
    let blanks := rest.takeWhile isBlank
    if blanks.contains '\n' then
      let kept := (blanks.reverse.takeWhile (· != '\n')).reverse
      some (kept ++ rest.dropWhile isBlank)
    else none
  | _ => none

/-- Cuts a text at its paragraph breaks.  The first argument bounds the number of steps, the
    second holds the piece under way in reverse order. -/
def chunksFrom : Nat → List Char → List Char → List (List Char)
  | 0, acc, cs => [acc.reverse ++ cs]
  | _ + 1, acc, [] => [acc.reverse]
  | fuel + 1, acc, c :: rest =>
    match afterBreak? (c :: rest) with
    | some rest' => acc.reverse :: chunksFrom fuel [] rest'
    | none => chunksFrom fuel (c :: acc) rest

/-- The pieces of a text between its blank lines. -/
def paragraphChunks (cs : List Char) : List (List Char) :=
  chunksFrom (cs.length + 1) [] cs

/-- Joins pieces with a separator between them. -/
def joinWith (sep : List Char) : List (List Char) → List Char
  | [] => []
  | [w] => w
  | w :: ws => w ++ sep ++ joinWith sep ws

/-- The words of each paragraph of a text. -/
def paragraphWords (cs : List Char) : List (List (List Char)) :=
  ((paragraphChunks (trimChars cs)).map wordsOf).filter (!·.isEmpty)

/-- The paragraphs of a text, each with single spaces between its words. -/
def paragraphs (s : String) : List String :=
  (paragraphWords s.toList).map fun ws => String.ofList (joinWith [' '] ws)

/-- Goes on filling: `line` holds the characters of the line under way. -/
def fillFrom (width : Nat) (line : List Char) : List (List Char) → List (List Char)
  | [] => [line]
  | w :: ws =>
    if line.length + 1 + w.length ≤ width then fillFrom width (line ++ ' ' :: w) ws
    else line :: fillFrom width w ws

/-- Sets words on lines of at most `width` characters, as many words on each as fit. -/
def fillWords (width : Nat) : List (List Char) → List (List Char)
  | [] => []
  | w :: ws => fillFrom width w ws

/-- Joins groups of lines with one empty line between two groups. -/
def separateGroups : List (List (List Char)) → List (List Char)
  | [] => []
  | [g] => g
  | g :: gs => g ++ [] :: separateGroups gs

/-- The filled lines of a text, with an empty line between two paragraphs. -/
def wrapChars (width : Nat) (cs : List Char) : List (List Char) :=
  separateGroups ((paragraphWords cs).map (fillWords width))

/-- The text has something to fill lines with. -/
def hasWords (cs : List Char) : Bool :=
  !(paragraphWords cs).isEmpty

/-- The filled lines of a text; there are none for a width without room, unless the text is blank.
    -/
def wrap? (width : Int) (s : String) : Option (List (List Char)) :=
  if width ≤ 0 && hasWords s.toList then none else some (wrapChars width.toNat s.toList)

/-- The complaint about a width that nothing fits. -/
def invalidWidthMessage (width : Int) : String :=
  "invalid width " ++ toString width ++ " (must be > 0)"

end Docsmith.Text
