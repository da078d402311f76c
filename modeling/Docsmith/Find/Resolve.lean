import Docsmith.Doc.Declaration
import Docsmith.Identifier

namespace Docsmith

/-!
# Declarations by identifier

* `ownerName`: an owner without pointer, parentheses and type parameters.
* `Identifier.matchers`: the ways in which an identifier can mean a declaration, the first one that
  finds any winning.
* `resolve?`: the declaration that an identifier means.
-/

/-- The text from a bracket on ends in a closing one on the same line: the last line of the text, or
    what stands before its final newline. -/
def closesLine (rest : List Char) : Option (List Char) :=
  match rest.reverse with
  | ']' :: inner => if inner.contains '\n' then none else some []
  | '\n' :: ']' :: inner => if inner.contains '\n' then none else some ['\n']
  | _ => none

/-- A text without type parameters at its end: from the first bracket that the end of the text
    closes. -/
def dropParameters : List Char → List Char
  | [] => []
  | c :: rest =>
    if c == '[' then
      match closesLine rest with
      | some tail => tail
      | none => c :: dropParameters rest
    else c :: dropParameters rest

/-- An owner without parentheses around it, leading stars and type parameters. -/
def ownerName (name : String) : String :=
  let paren (c : Char) : Bool := c == '(' || c == ')'
  let inner := ((name.toList.dropWhile paren).reverse.dropWhile paren).reverse
  String.ofList (dropParameters (inner.dropWhile (· == '*')))

namespace Identifier

/-- The identifier is one of a value. -/
def isValue (i : Identifier) : Bool := i.kind == "var" || i.kind == "const"

/-- The identifier means the function. -/
def meansFunction (i : Identifier) (d : Declaration) : Bool :=
  i.kind == "func" && i.owner.isEmpty && d.kind == .function && d.name == i.name

/-- The identifier means the method. -/
def meansMethod (i : Identifier) (d : Declaration) : Bool :=
  i.kind == "func" && d.kind == .method && d.name == i.name
    && ownerName d.owner == ownerName i.owner

/-- The identifier means the type. -/
def meansType (i : Identifier) (d : Declaration) : Bool :=
  i.kind == "type" && d.kind == .type && d.name == i.name

/-- The identifier means the value by its own name. -/
def meansValue (i : Identifier) (d : Declaration) : Bool :=
  i.isValue && d.kind == .value && d.name == i.name

/-- The identifier means the method of an interface. -/
def meansInterfaceMethod (i : Identifier) (d : Declaration) : Bool :=
  i.kind == "func" && d.kind == .interfaceMethod && d.name == i.name && d.owner == ownerName i.owner

/-- The identifier means the property. -/
def meansProperty (i : Identifier) (d : Declaration) : Bool :=
  i.kind == "prop" && d.kind == .property && d.name == i.name && d.owner == i.owner

/-- The identifier means the value by a further name. -/
def meansAlias (i : Identifier) (d : Declaration) : Bool :=
  i.isValue && d.kind == .value && d.aliases.contains i.name

/-- The ways in which an identifier can mean a declaration, the strongest first. -/
def matchers : List (Identifier → Declaration → Bool) :=
  [meansFunction, meansMethod, meansType, meansValue, meansInterfaceMethod, meansProperty,
   meansAlias]

end Identifier

/-- The declaration that an identifier means. -/
def resolve? (ds : List Declaration) (identifier : String) : Option Declaration :=
  match Identifier.parse? identifier with
  | none => none
  | some i => Identifier.matchers.findSome? fun means => ds.find? (means i)

end Docsmith
