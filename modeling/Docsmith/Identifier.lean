import Docsmith.Text.Quoted

namespace Docsmith

/-!
# Identifiers of symbols

A symbol is addressed by a kind, a colon and a path: `func:Foo`, `func:Foo.Bar`, `func:(*Foo).Bar`,
`type:T`.

* `Identifier`: the parts of an address.
* `Identifier.text`: the address.
* `Identifier.parse?`: its parts.
* `Identifier.target`: a description for people.
-/

/-- The parts of an address. -/
structure Identifier where
  kind : String
  name : String
  owner : String := ""
  pointer : Bool := false
deriving DecidableEq, Repr

namespace Identifier

/-- The kinds of symbols. -/
def kinds : List String := ["func", "type", "var", "const", "prop"]

/-- The part of an address after the colon. -/
def path (i : Identifier) : String :=
  if i.owner.isEmpty then i.name
  else (if i.pointer then "(*" ++ i.owner ++ ")" else i.owner) ++ "." ++ i.name

/-- The address. -/
def text (i : Identifier) : String := i.kind ++ ":" ++ i.path

/-- A text cut at the first place of a character, which is dropped. -/
def cutAt (mark : Char) : List Char → Option (List Char × List Char)
  | [] => none
  | c :: rest =>
    if c == mark then some ([], rest) else (cutAt mark rest).map fun p => (c :: p.1, p.2)

/-- The owner and name of a path with a dot, and whether the owner is a pointer: either a pointer in
    parentheses or a plain owner, then a dot and a name without one. -/
def splitPath? (path : List Char) : Option (List Char × List Char × Bool) :=
  let method (owner name : List Char) (pointer : Bool) : Option (List Char × List Char × Bool) :=
    if owner.isEmpty || name.isEmpty || name.contains '.' then none else some (owner, name, pointer)
  match path with
  | '(' :: '*' :: rest =>
    match cutAt ')' rest with
    | some (owner, '.' :: name) => method owner name true
    | _ => none
  | _ =>
    match cutAt '.' path with
    | some (owner, name) =>
      if owner.contains '(' || owner.contains ')' then none else method owner name false
    | none => none

/-- The parts of an address, if it is one. -/
def parse? (s : String) : Option Identifier :=
  match cutAt ':' s.toList with
  | none => none
  | some (kind, path) =>
    let kind := String.ofList kind
    if !kinds.contains kind || path.isEmpty then none
    else if !path.contains '.' then some { kind := kind, name := String.ofList path }
    else
      (splitPath? path).map fun (owner, name, pointer) =>
        { kind := kind, name := String.ofList name, owner := String.ofList owner,
          pointer := pointer }

/-- The complaint about a text that is no address. -/
def invalidMessage (s : String) : String := "invalid identifier: " ++ Text.quote s

/-- A description of the symbol for people. -/
def describe (i : Identifier) : String :=
  if i.kind == "func" then
    if i.owner.isEmpty then "function '" ++ i.name ++ "()'"
    else "method '" ++ i.name ++ "' of '" ++ i.owner ++ "'"
  else if i.kind == "prop" then "property '" ++ i.name ++ "' of '" ++ i.owner ++ "'"
  else if i.kind == "type" then "type '" ++ i.name ++ "'"
  else if i.kind == "const" then "constant '" ++ i.name ++ "'"
  else "variable '" ++ i.name ++ "'"

/-- A description of the symbol at an address; what is no address is quoted. -/
def target (s : String) : String :=
  match parse? s with
  | some i => i.describe
  | none => Text.quote s

end Identifier

end Docsmith
