import Docsmith.Find.Finding
import Docsmith.Json.Basic

namespace Docsmith.Cli

/-!
# The console

What a command shows is a list of events.  Text is written with tags in brackets for its looks; what
comes from outside is escaped so that brackets in it are shown.

* `Markup.escape`, `Markup.plain`: text that is shown as it is, and what is shown of a text.
* `Event`: a line, a table, a document, a heading or a source.
* `Event.error`, `Event.success` and so on: the usual lines.
-/

namespace Markup

/-- A character that a tag begins with. -/
def startsTag (c : Char) : Bool := ('a' ≤ c && c ≤ 'z') || c == '#' || c == '/' || c == '@'

/-- The body of a tag after its opening bracket, up to the closing one, and the rest.  `bars` tells
    the characters that no tag has. -/
def tag? (bars : Char → Bool) (cs : List Char) : Option (List Char × List Char) :=
  match cs with
  | c :: _ =>
    let body := cs.takeWhile fun c => c != ']' && !bars c
    match cs.drop body.length with
    | ']' :: rest => if startsTag c then some (body, rest) else none
    | _ => none
  | [] => none

/-- Protects every tag by backslashes.  The first argument bounds the number of steps. -/
def escapeFrom : Nat → List Char → List Char
  | 0, cs => cs
  | _, [] => []
  | steps + 1, c :: rest =>
    let slashes := (c :: rest).takeWhile (· == '\\')
    match (c :: rest).drop slashes.length with
    | '[' :: more =>
      match tag? (· == '\n') more with
      | some (body, out) =>
        slashes ++ slashes ++ '\\' :: '[' :: body ++ ']' :: escapeFrom steps out
      | none => slashes ++ '[' :: escapeFrom steps more
    | _ => if slashes.isEmpty then c :: escapeFrom steps rest
      else slashes ++ escapeFrom steps ((c :: rest).drop slashes.length)

/-- A text that is shown as it is.  A single backslash at the end is doubled, so that it does not
    protect what follows. -/
def escape (s : String) : String :=
  let cs := escapeFrom (s.length + 1) s.toList
  String.ofList <| match cs.reverse with
    | '\\' :: '\\' :: _ => cs
    | '\\' :: _ => cs ++ ['\\']
    | _ => cs

/-- What is shown of a text.  The first argument bounds the number of steps. -/
def plainFrom : Nat → List Char → List Char
  | 0, cs => cs
  | _, [] => []
  | steps + 1, c :: rest =>
    let slashes := (c :: rest).takeWhile (· == '\\')
    match (c :: rest).drop slashes.length with
    | '[' :: more =>
      match tag? (· == '[') more with
      | some (body, out) =>
        let kept := slashes.take (slashes.length / 2)
        if slashes.length % 2 == 1 then kept ++ '[' :: body ++ ']' :: plainFrom steps out
        else kept ++ plainFrom steps out
      | none => slashes.drop 1 ++ '[' :: plainFrom steps more
    | _ => if slashes.isEmpty then c :: plainFrom steps rest
      else slashes ++ plainFrom steps ((c :: rest).drop slashes.length)

/-- What is shown of a text. -/
def plain (s : String) : String := String.ofList (plainFrom (s.length + 1) s.toList)

end Markup

open Markup

/-- What a command shows. -/
inductive Event where
  | line (text : String)
  | table (rows : List (List String))
  | document (value : Json)
  | heading (title : String)
  | source (code lexer : String)

namespace Event

/-- A line of marked-up text. -/
def marked (s : String) : Event := line (plain s)

/-- A line about an error. -/
def error (s : String) : Event := marked ("[red]Error:[/red] " ++ escape s)

/-- A line about a warning. -/
def warning (s : String) : Event := marked ("[yellow]Warning:[/yellow] " ++ escape s)

/-- A line about a success. -/
def success (s : String) : Event := marked ("[green]Success:[/green] " ++ s)

/-- A line of information. -/
def info (s : String) : Event := marked ("[cyan]Info:[/cyan] " ++ s)

/-- A line in the background. -/
def dim (s : String) : Event := marked ("[dim]" ++ s ++ "[/dim]")

/-- The table of findings, or the line that there are none. -/
def findings (fs : List Finding) : List Event :=
  if fs.isEmpty then [success "No undocumented symbols found."]
  else
    let cell (s : String) : String := plain (escape s)
    [table (["File", "Identifier", "Target"]
       :: fs.map fun f => [cell f.file, cell f.identifier, cell f.target]),
     dim (toString fs.length ++ " undocumented symbol(s)")]

/-- Findings as a document. -/
def findingsDocument (fs : List Finding) : Event :=
  document (.list (fs.map fun f => .object [("file", .text f.file),
    ("identifier", .text f.identifier), ("target", .text f.target),
    ("language", .text f.language)]))

/-- The list of failures; nothing when there are none. -/
def failures (messages : List String) : List Event :=
  if messages.isEmpty then []
  else warning (toString messages.length ++ " failure(s):")
    :: messages.map fun m => marked ("  [red]-[/red] " ++ escape m)

/-- A source under its path. -/
def code (path content lexer : String) : List Event := [heading path, source content lexer]

end Event

end Docsmith.Cli
