import Docsmith.Files.Folder
import Docsmith.Settings.Environment
import Docsmith.Text.Blank

namespace Docsmith

open Text

/-!
# Files of variables

A folder may have a file of variables, one `NAME=value` on a line.  A name may follow the word
`export`, a value may stand in quotes, and a hash begins a comment.  A value may refer to variables
by name in braces after a dollar sign.  What the environment has already is left as it is.

* `EnvFile.bindings`: the variables of such a file.
* `EnvFile.expand`: a value with its references replaced.
* `Environment.withFile`: the environment with the variables of a folder's file behind it.
-/

namespace EnvFile

/-- A character that ends a line. -/
def isBreak (c : Char) : Bool := c == '\n' || c == '\r'

/-- A blank within a line. -/
def isGap (c : Char) : Bool := isBlank c && !isBreak c

/-- Drops the word `export` and the blanks behind it. -/
def dropExport (cs : List Char) : List Char :=
  let word := "export".toList
  let rest := cs.drop word.length
  if cs.take word.length == word && rest.head?.any isGap then rest.dropWhile isGap else cs

/-- The characters up to a closing quote, before which a backslash protects one, and the rest. -/
def quotedValue? (mark : Char) : List Char → Option (List Char × List Char)
  | [] => none
  | '\\' :: c :: rest =>
    if c == mark then
      (quotedValue? mark rest).map fun (s, out) => ('\\' :: c :: s, out)
    else (quotedValue? mark (c :: rest)).map fun (s, out) => ('\\' :: s, out)
  | c :: rest =>
    if c == mark then some ([], rest)
    else (quotedValue? mark rest).map fun (s, out) => (c :: s, out)

/-- The character that a letter after a backslash stands for inside quotes. -/
def escaped? (mark c : Char) : Option Char :=
  if c == '\\' || c == '\'' then some c
  else if mark == '\'' then none
  else if c == '"' then some c
  else if c == 'a' then some (Char.ofNat 0x07)
  else if c == 'b' then some (Char.ofNat 0x08)
  else if c == 'f' then some (Char.ofNat 0x0c)
  else if c == 'n' then some '\n'
  else if c == 'r' then some '\r'
  else if c == 't' then some '\t'
  else if c == 'v' then some (Char.ofNat 0x0b)
  else none

/-- Replaces what stands after backslashes. -/
def unescape (mark : Char) : List Char → List Char
  | [] => []
  | '\\' :: c :: rest =>
    match escaped? mark c with
    | some x => x :: unescape mark rest
    | none => '\\' :: unescape mark (c :: rest)
  | c :: rest => c :: unescape mark rest

/-- A value without the comment behind it: a hash after a blank begins one. -/
def dropComment : List Char → List Char
  | [] => []
  | c :: rest =>
    if isBlank c && (rest.dropWhile isBlank).head? == some '#' then [] else c :: dropComment rest

/-- The value at the head, and the rest. -/
def readValue? (cs : List Char) : Option (List Char × List Char) :=
  match cs with
  | [] => some ([], [])
  | c :: rest =>
    if c == '\'' || c == '"' then
      (quotedValue? c rest).map fun (s, out) => (unescape c s, out)
    else
      let line := cs.takeWhile (!isBreak ·)
      some ((dropComment line).reverse.dropWhile isBlank |>.reverse, cs.drop line.length)

/-- The name at the head, and the rest; an empty name stands for a comment. -/
def readName? (cs : List Char) : Option (List Char × List Char) :=
  match cs with
  | [] => none
  | '#' :: _ => some ([], cs)
  | '\'' :: rest =>
    let name := rest.takeWhile (· != '\'')
    if name.isEmpty || (rest.drop name.length).isEmpty then none
    else some (name, rest.drop (name.length + 1))
  | cs =>
    let name := cs.takeWhile fun c => c != '=' && c != '#' && !isBlank c
    if name.isEmpty then none else some (name, cs.drop name.length)

/-- The rest after blanks, a comment and the end of the line; none when something else is there. -/
def endLine? (cs : List Char) : Option (List Char) :=
  let rest := cs.dropWhile isGap
  let rest := if rest.head? == some '#' then rest.dropWhile (!isBreak ·) else rest
  match rest with
  | [] => some []
  | c :: more => if isBreak c then some more else none

/-- A binding at the head, and the rest. -/
def readBinding? (cs : List Char) : Option (Option (String × String) × List Char) := do
  let (name, rest) ← readName? (dropExport cs)
  match rest.dropWhile isGap with
  | '=' :: rest =>
    let (value, rest) ← readValue? (rest.dropWhile isGap)
    let rest ← endLine? rest
    return (if name.isEmpty then none else some (String.ofList name, String.ofList value), rest)
  | rest => return (none, ← endLine? rest)

/-- The bindings of a file, in order; a line that is none is passed over.  The first argument bounds
    the number of steps. -/
def bindingsFrom : Nat → List Char → List (String × String)
  | 0, _ => []
  | steps + 1, cs =>
    match cs.dropWhile isBlank with
    | [] => []
    | cs =>
      match readBinding? cs with
      | some (binding, rest) => binding.toList ++ bindingsFrom steps rest
      | none => bindingsFrom steps ((cs.dropWhile (!isBreak ·)).drop 1)

/-- The bindings of a file, in order. -/
def bindings (s : String) : List (String × String) := bindingsFrom (s.length + 1) s.toList

/-- A reference after a dollar sign: the name in braces, what stands for it when it is not there,
    and the rest. -/
def reference? : List Char → Option (List Char × List Char × List Char)
  | '\x7b' :: cs =>
    let body := cs.takeWhile (· != '\x7d')
    match cs.drop body.length with
    | _ :: rest =>
      let name := body.takeWhile (· != ':')
      match body.drop name.length with
      | [] => some (name, [], rest)
      | ':' :: '-' :: other => some (name, other, rest)
      | _ => none
    | [] => none
  | _ => none

/-- A value with its references replaced.  The first argument bounds the number of steps. -/
def expandFrom (env : Environment) : Nat → List Char → List Char
  | 0, cs => cs
  | _, [] => []
  | steps + 1, c :: rest =>
    if c == '$' then
      match reference? rest with
      | some (name, other, rest) =>
        ((env.get? (String.ofList name)).map (·.toList)).getD other ++ expandFrom env steps rest
      | none => c :: expandFrom env steps rest
    else c :: expandFrom env steps rest

/-- A value with its references replaced by the values of variables. -/
def expand (env : Environment) (value : String) : String :=
  String.ofList (expandFrom env (value.length + 1) value.toList)

end EnvFile

/-- The name of the file of variables. -/
def variablesFile : String := ".env"

/-- The environment with some bindings behind it; of two bindings with one name the later counts. -/
def Environment.withBindings (env : Environment) (bindings : List (String × String)) :
    Environment :=
  let loaded := bindings.foldl (fun (known : Environment) (name, value) =>
    (name, EnvFile.expand (env ++ known) value) :: known) []
  env ++ loaded

/-- The environment with the variables of a folder's file behind it. -/
def Environment.withFile (env : Environment) (folder : Folder) (disk : FileTree) : Environment :=
  match folder.read disk variablesFile with
  | .error _ => env
  | .ok bytes =>
    match decode bytes with
    | .error _ => env
    | .ok s => env.withBindings (EnvFile.bindings s)

end Docsmith
