import Docsmith.Text.Fill

namespace Docsmith.Doc

open Text

/-!
# Documentation as comments

Filled lines of documentation become either a run of line comments or a triple-quoted string
literal.

* `commentWidth`: the usual width of a filled line.
* `lineComment`: the lines behind a marker, each on a line of its own.
* `escapeLine`: a line as it stands inside a triple-quoted literal.
* `docstring`: the lines inside a triple-quoted literal.
-/

/-- The usual width to which documentation is filled. -/
def commentWidth : Nat := 77

/-- One commented line; an empty one has nothing after the marker. -/
def commentLine (marker indent line : List Char) : List Char :=
  if line.isEmpty then indent ++ marker else indent ++ marker ++ ' ' :: line

/-- Each line behind the marker and with a line feed after it. -/
def lineComment (marker indent : List Char) (lines : List (List Char)) : List Char :=
  lines.flatMap fun line => commentLine marker indent line ++ ['\n']

/-- Doubles every backslash. -/
def doubleBackslashes (line : List Char) : List Char :=
  line.flatMap fun c => if c == '\\' then ['\\', '\\'] else [c]

/-- Escapes each of three double quotes in a row. -/
def escapeTripleQuotes : List Char → List Char
  | '"' :: '"' :: '"' :: rest =>
    '\\' :: '"' :: '\\' :: '"' :: '\\' :: '"' :: escapeTripleQuotes rest
  | c :: rest => c :: escapeTripleQuotes rest
  | [] => []

/-- A line as it stands inside a triple-quoted literal. -/
def escapeLine (line : List Char) : List Char :=
  escapeTripleQuotes (doubleBackslashes line)

/-- Three double quotes. -/
def tripleQuote : List Char := ['"', '"', '"']

/-- Escapes a double quote at the end of a text, where it would join the closing quotes. -/
def guardLastQuote (body : List Char) : List Char :=
  match body.reverse with
  | '"' :: rest => rest.reverse ++ ['\\', '"']
  | _ => body

/-- A continuation line of a literal. -/
def continuation (indent line : List Char) : List Char :=
  if line.isEmpty then ['\n'] else '\n' :: indent ++ line

/-- The lines as a triple-quoted literal: on one line when they are one that fits the width, and
    else with the closing quotes on a line of their own. -/
def docstring (width : Nat) (indent : List Char) (lines : List (List Char)) : List Char :=
  match lines.map escapeLine with
  | [] => tripleQuote ++ tripleQuote
  | first :: rest =>
    if rest.isEmpty && indent.length + first.length + 6 ≤ width + 3 then
      tripleQuote ++ guardLastQuote first ++ tripleQuote
    else
      tripleQuote ++ first ++ rest.flatMap (continuation indent) ++ '\n' :: indent ++ tripleQuote

end Docsmith.Doc
