import Docsmith.Doc.Slot

namespace Docsmith

/-!
# Declarations

What can be documented: functions, methods, types, values, the methods of interfaces, and
properties.

* `DeclKind`: the sorts of declaration.
* `Declaration`: a declaration found in a source.
* `Declaration.identifier`: the name by which it is addressed.
-/

/-- The sorts of declaration. -/
inductive DeclKind where
  | function
  | method
  | type
  | value
  | interfaceMethod
  | property
deriving DecidableEq, Repr

/-- The sort in words. -/
def DeclKind.text : DeclKind → String
  | .function => "function"
  | .method => "method"
  | .type => "type"
  | .value => "value"
  | .interfaceMethod => "interface method"
  | .property => "property"

/-- A declaration of a source.  `aliases` are further names that share its slot, and the span is the
    stretch of code from `start` to `stop`. -/
structure Declaration where
  kind : DeclKind
  name : String
  slot : DocSlot
  owner : String := ""
  pointer : Bool := false
  keyword : String := ""
  exported : Bool := true
  test : Bool := false
  aliases : List String := []
  start : Nat := 0
  stop : Nat := 0
deriving DecidableEq, Repr

namespace Declaration

/-- The declaration has documentation. -/
def documented (d : Declaration) : Bool := d.slot.hasDoc

/-- The owner of a method as an identifier writes it. -/
def ownerText (owner : String) (pointer : Bool) : String :=
  if pointer then "(*" ++ owner ++ ")" else owner

/-- The name by which the declaration is addressed. -/
def identifier (d : Declaration) : String :=
  match d.kind with
  | .type => "type:" ++ d.name
  | .value => (if d.keyword.isEmpty then "var" else d.keyword) ++ ":" ++ d.name
  | .property => "prop:" ++ d.owner ++ "." ++ d.name
  | .method => "func:" ++ ownerText d.owner d.pointer ++ "." ++ d.name
  | .interfaceMethod => "func:" ++ ownerText d.owner d.pointer ++ "." ++ d.name
  | .function => "func:" ++ d.name

end Declaration

end Docsmith
