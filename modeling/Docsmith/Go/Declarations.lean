import Docsmith.Doc.Declaration
import Docsmith.Go.Grammar
import Docsmith.Text.Blank
import Docsmith.Text.Case
import Docsmith.Tree.SourceTree

namespace Docsmith.Go

open Text

/-!
# Declarations of Go sources

Functions, methods, types, constants, variables and the methods of interface types are declared at
the top level.  The members of a group share its documentation only when there is a single one.

* `receiverOwner`: the type a method belongs to.
* `parseTree`: the parsed source.
* `declarations`: what a source declares, in source order.
-/

/-- The owner that a receiver's type names, and whether it is a pointer: blanks, parentheses and
    stars are dropped, and so are type arguments. -/
def receiverOwner (receiver : String) : String × Bool :=
  let cs := receiver.toList
  let noise (c : Char) : Bool := isBlank c || c == '(' || c == ')' || c == '*'
  (String.ofList ((cs.filter (!noise ·)).takeWhile (· != '[')), cs.contains '*')

/-- The name can be seen from other packages: it begins with a capital letter. -/
def isExported (name : String) : Bool :=
  match name.toList with
  | [] => false
  | c :: _ => isUpperChar c

/-- The name is that of a test. -/
def isTest (name : String) : Bool := name.startsWith "Test"

/-- The parsed source. -/
def parseTree (code : Bytes) : Except Failure SourceTree :=
  match parse code with
  | .ok root => .ok { code := code, root := root }
  | .error row => .error (.unparsable "go" row "")

/-- A function declared at the top level. -/
def function (t : SourceTree) (before : List Node) (n : Node) : Except Failure Declaration := do
  let name ← t.textOf (n.child? "name")
  return { kind := .function, name := name, slot := lineSlot t.code before n,
           exported := isExported name, test := isTest name, start := n.start, stop := n.stop }

/-- The owner of a method and whether it is a pointer, if the receiver names one. -/
def receiver (t : SourceTree) (n : Node) : Except Failure (Option (String × Bool)) := do
  let params := ((n.child? "receiver").map (·.namedChildren)).getD []
  match params.find? (·.kind == "parameter_declaration") with
  | none => return none
  | some p =>
    let (owner, pointer) := receiverOwner (← t.textOf (p.child? "type"))
    return if owner.isEmpty then none else some (owner, pointer)

/-- A method, if it has an owner. -/
def method (t : SourceTree) (before : List Node) (n : Node) :
    Except Failure (Option Declaration) := do
  match ← receiver t n with
  | none => return none
  | some (owner, pointer) =>
    let name ← t.textOf (n.child? "name")
    return some { kind := .method, name := name, owner := owner, pointer := pointer,
                  slot := lineSlot t.code before n,
                  exported := isExported name && isExported owner, test := isTest name,
                  start := n.start, stop := n.stop }

/-- The kinds of nodes that declare one member of a group. -/
def specKinds : List String := ["type_spec", "type_alias", "const_spec", "var_spec"]

/-- The members of a group, each with the siblings before it. -/
def specs (decl : Node) : List (List Node × Node) :=
  (withBefore [] decl.children).flatMap fun (before, child) =>
    if specKinds.contains child.kind then [(before, child)]
    else if child.kind.endsWith "_spec_list" then
      (withBefore [] child.children).filter fun (_, c) => specKinds.contains c.kind
    else []

/-- The kinds of nodes that declare a method of an interface. -/
def methodKinds : List String := ["method_elem", "method_spec"]

/-- The methods of an interface type. -/
def interfaceMethods (t : SourceTree) (owner : String) (body : Node) :
    Except Failure (List Declaration) :=
  ((withBefore [] body.children).filter fun (_, n) => methodKinds.contains n.kind).mapM
    fun (before, n) => do
      let name ← t.textOf (n.child? "name")
      return { kind := .interfaceMethod, name := name, owner := owner,
               slot := lineSlot t.code before n,
               exported := isExported name && isExported owner, start := n.start, stop := n.stop }

/-- The slot of a member.  A sole member without documentation of its own takes that of the group;
    one of several that shares its line with what is before it is put on a line of its own. -/
def specSlot (t : SourceTree) (groupSlot : DocSlot) (memberIndent : String) (sole : Bool)
    (before : List Node) (spec : Node) : DocSlot :=
  if sole then
    if t.code.startsLine spec.start then
      let slot := lineSlot t.code before spec
      if slot.hasDoc then slot else groupSlot
    else groupSlot
  else if t.code.startsLine spec.start then lineSlot t.code before spec
  else inlineSlot t.code before spec memberIndent

/-- The declaration of a type and of the methods of its interface. -/
def typeSpec (t : SourceTree) (keyword : String) (slot : DocSlot) (spec : Node) :
    Except Failure (List Declaration) := do
  let name ← t.textOf (spec.child? "name")
  let decl : Declaration :=
    { kind := .type, name := name, slot := slot, keyword := keyword, exported := isExported name,
      start := spec.start, stop := spec.stop }
  match spec.child? "type" with
  | some body =>
    if body.kind == "interface_type" then return decl :: (← interfaceMethods t name body)
    else return [decl]
  | none => return [decl]

/-- The declaration of constants or variables: one comment documents every name of the member, and
    the first exported name stands for them. -/
def valueSpec (t : SourceTree) (keyword : String) (slot : DocSlot) (spec : Node) :
    Except Failure (List Declaration) := do
  let names ← (spec.childrenIn "name").mapM fun n => t.textOf (some n)
  match names with
  | [] => return []
  | first :: _ =>
    let exported := names.filter isExported
    let name := exported.headD first
    return [{ kind := .value, name := name, slot := slot, keyword := keyword,
              exported := !exported.isEmpty, aliases := names.filter (· != name),
              start := spec.start, stop := spec.stop }]

/-- The declarations of a group. -/
def group (t : SourceTree) (keyword : String) (before : List Node) (decl : Node) :
    Except Failure (List Declaration) := do
  let members := specs decl
  let groupSlot := lineSlot t.code before decl
  let memberIndent := asciiText (t.code.lineIndent decl.start) ++ "\t"
  let found ← members.mapM fun (before, spec) =>
    let slot := specSlot t groupSlot memberIndent (members.length == 1) before spec
    if keyword == "type" then typeSpec t keyword slot spec else valueSpec t keyword slot spec
  return found.flatten

/-- The declarations of one construct at the top level. -/
def topLevel (t : SourceTree) (before : List Node) (n : Node) :
    Except Failure (List Declaration) := do
  if n.kind == "function_declaration" then return [← function t before n]
  else if n.kind == "method_declaration" then return (← method t before n).toList
  else if n.kind == "type_declaration" then group t "type" before n
  else if n.kind == "const_declaration" then group t "const" before n
  else if n.kind == "var_declaration" then group t "var" before n
  else return []

/-- What a source declares, in source order. -/
def declarations (t : SourceTree) : Except Failure (List Declaration) := do
  let found ← (withBefore [] t.root.children).mapM fun (before, n) => topLevel t before n
  return found.flatten

end Docsmith.Go
