import Docsmith.Doc.Declaration
import Docsmith.Python.Grammar
import Docsmith.Text.Blank
import Docsmith.Text.Case
import Docsmith.Tree.SourceTree

namespace Docsmith.Python

open Text

/-!
# Declarations of Python sources

Functions, classes and the methods and properties of classes are documented by a string literal at
the head of their body, values by comments above them.  A name that is defined again stands for its
last definition.

* `parseTree`: the parsed source.
* `docstringSlot`: where the documentation of a definition lives.
* `definitions`: every declaration with the definition it comes from.
* `declarations`: what a source declares, each identifier once.
-/

/-- The parsed source. -/
def parseTree (code : Bytes) : Except Failure SourceTree :=
  match parse code with
  | .ok root => .ok { code := code, root := root }
  | .error row => .error (.unparsable "python" row "")

/-- The name is public: it has no leading underscore. -/
def isExported (name : String) : Bool := !name.isEmpty && !name.startsWith "_"

/-- The name of a class is that of a test case. -/
def isTestClass (name : String) : Bool := name.startsWith "Test"

/-- The name of a function is that of a test. -/
def isTestFunction (name : String) : Bool := name == "test" || name.startsWith "test_"

/-- The node is a definition that may have documentation in its body. -/
def isDefinition (n : Node) : Bool :=
  n.kind == "function_definition" || n.kind == "class_definition"

/-- The only construct of an expression statement, if it has just one. -/
def soleExpression? (n : Node) : Option Node :=
  if n.kind == "expression_statement" then
    match n.namedChildren with
    | [c] => some c
    | _ => none
  else none

/-- The statement is a string literal alone. -/
def isDocstring (n : Node) : Bool := (soleExpression? n).any (·.kind == "string")

/-- The statement does nothing: a `pass` or three dots. -/
def isStub (n : Node) : Bool :=
  n.kind == "pass_statement" || (soleExpression? n).any (·.kind == "ellipsis")

/-- The statements of a block, comments left out. -/
def statements (block : Node) : List Node := block.namedChildren.filter (!·.isComment)

/-- The named sibling after the first statement of a block. -/
def afterFirst? (block : Node) (first : Node) : Option Node :=
  (block.namedChildren.dropWhile fun n => n.start != first.start || n.isComment).drop 1 |>.head?

/-- Four spaces. -/
def bodyIndent : String := "    "

/-- The slot of a body that begins with a string literal.  When something follows on a later line
    the slot reaches up to it; what takes the place of a removed literal leaves a statement behind.
    -/
def literalSlot (t : SourceTree) (indent : String) (inline : Bool) (block first : Node) :
    Except Failure DocSlot := do
  let contents := ((soleExpression? first).map (·.namedChildren)).getD []
    |>.filter (·.kind == "string_content")
  let texts ← contents.mapM fun c => t.textOf (some c)
  let next := afterFirst? block first
  let (stop, follow, clear) := match next with
    | some n =>
      if !inline && first.lastRow < n.row then
        let follow := t.code.slice first.stop n.start
        (n.start, follow,
          if (statements block).length > 1 then [] else encode "pass" ++ follow)
      else (first.stop, [], encode "pass")
    | none => (first.stop, [], encode "pass")
  let followText ← SourceTree.textBetween follow 0 follow.length
  return { start := first.start, stop := stop, indent := indent, style := .docstring,
           hasDoc := texts.any (!isBlankText ·), former := t.code.slice first.start stop,
           follow := followText, clear := some clear }

/-- Where the documentation of a definition lives: at the head of its body. -/
def docstringSlot (t : SourceTree) (definition : Node) : Except Failure DocSlot := do
  let colon? := (definition.children.filter (·.kind == ":")).getLast?
  let block? := definition.child? "body"
  match colon?, block?, (block?.map statements).getD [] with
  | some colon, some block, first :: _ =>
    let inline := first.row == colon.lastRow
    let indent := if inline then asciiText (t.code.lineIndent definition.start) ++ bodyIndent
      else asciiText (t.code.indentOf first.start)
    if isDocstring first then literalSlot t indent inline block first
    else if inline then
      return { start := colon.stop, stop := first.start, indent := indent, style := .docstring,
               former := t.code.slice colon.stop first.start, inline := true }
    else
      return { start := first.start, stop := first.start, indent := indent, style := .docstring,
               follow := "\n" ++ indent }
  | _, _, _ => .error .emptyBody

/-- The text of a decorator up to its arguments, the last part of a dotted name. -/
def decoratorName (text : String) : String :=
  let cs := text.toList.dropWhile (· == '@')
  let called := trimChars (cs.takeWhile (· != '('))
  String.ofList (called.reverse.takeWhile (· != '.')).reverse

/-- The names of the decorators of a definition. -/
def decoratorNames (t : SourceTree) (n : Node) : Except Failure (List String) :=
  (n.namedChildren.filter (·.kind == "decorator")).mapM fun d =>
    decoratorName <$> t.textOf (some d)

/-- The definition in a node with the names of its decorators, unless it is an overload. -/
def unwrap (t : SourceTree) (n : Node) : Except Failure (Option (Node × List String)) := do
  let (inner, decorators) ← if n.kind == "decorated_definition"
    then do pure (n.child? "definition", ← decoratorNames t n)
    else pure (some n, [])
  match inner with
  | some d => return if isDefinition d && !decorators.contains "overload" then some (d, decorators)
    else none
  | none => return none

/-- The declaration of a definition; `outer` is the definition with its decorators. -/
def declaration (t : SourceTree) (kind : DeclKind) (name owner : String) (outer definition : Node) :
    Except Failure Declaration := do
  let test := if owner.isEmpty then
      if kind == .type then isTestClass name else isTestFunction name
    else isTestClass owner
  return { kind := kind, name := name, owner := owner, slot := ← docstringSlot t definition,
           exported := isExported name && (owner.isEmpty || isExported owner), test := test,
           start := outer.start, stop := outer.stop }

/-- The method or property that a member of a class declares, if it does. -/
def member (t : SourceTree) (owner : String) (n : Node) :
    Except Failure (Option (Declaration × Node)) := do
  match ← unwrap t n with
  | none => return none
  | some (d, decorators) =>
    if d.kind != "function_definition" then return none
    else if decorators.any fun x => x == "setter" || x == "deleter" then return none
    else
      let kind := if decorators.any fun x => x == "property" || x == "cached_property"
        then .property else .method
      let name ← t.textOf (d.child? "name")
      return some (← declaration t kind name owner n d, d)

/-- A class and its members. -/
def classDeclarations (t : SourceTree) (outer cls : Node) :
    Except Failure (List (Declaration × Option Node)) := do
  let owner ← t.textOf (cls.child? "name")
  let decl ← declaration t .type owner "" outer cls
  let members := ((cls.child? "body").map (·.namedChildren)).getD []
  let found ← members.filterMapM (member t owner)
  return (decl, some cls) :: found.map fun (d, n) => (d, some n)

/-- The names that an assignment binds. -/
def boundNames (stmt : Node) : List Node :=
  match soleExpression? stmt with
  | some assignment =>
    if assignment.kind != "assignment" then []
    else match assignment.child? "left" with
      | some left =>
        if left.kind == "identifier" then [left]
        else if ["pattern_list", "tuple_pattern", "list_pattern"].contains left.kind then
          left.namedChildren.filter (·.kind == "identifier")
        else []
      | none => []
  | none => []

/-- The declaration of the values that a statement at the top level binds. -/
def values (t : SourceTree) (before : List Node) (stmt : Node) :
    Except Failure (List Declaration) := do
  let texts ← (boundNames stmt).mapM fun n => t.textOf (some n)
  match texts with
  | [] => return []
  | first :: _ =>
    let slot := if t.code.startsLine stmt.start then lineSlot t.code before stmt
      else inlineSlot t.code before stmt (asciiText (t.code.lineIndent stmt.start))
    let exported := texts.filter isExported
    let name := exported.headD first
    return [{ kind := .value, name := name, slot := slot,
              keyword := if isUpperText name then "const" else "var",
              exported := !exported.isEmpty, aliases := texts.filter (· != name),
              start := stmt.start, stop := stmt.stop }]

/-- The declarations of one statement at the top level. -/
def topLevel (t : SourceTree) (before : List Node) (n : Node) :
    Except Failure (List (Declaration × Option Node)) := do
  if n.kind == "expression_statement" then return (← values t before n).map fun d => (d, none)
  else match ← unwrap t n with
    | none => return []
    | some (d, _) =>
      if d.kind == "function_definition" then
        let name ← t.textOf (d.child? "name")
        return [(← declaration t .function name "" n d, some d)]
      else classDeclarations t n d

/-- Every declaration with its definition, in source order; values have none. -/
def definitions (t : SourceTree) : Except Failure (List (Declaration × Option Node)) := do
  let found ← ((withBefore [] t.root.children).filter fun (_, n) => n.named).mapM
    fun (before, n) => topLevel t before n
  return found.flatten

/-- Each declaration unless its identifier comes up again later. -/
def lastOfEach : List Declaration → List Declaration
  | [] => []
  | d :: rest =>
    if rest.any (·.identifier == d.identifier) then lastOfEach rest else d :: lastOfEach rest

/-- What a source declares: of definitions with one identifier, the last. -/
def declarations (t : SourceTree) : Except Failure (List Declaration) :=
  (fun ds => lastOfEach (ds.map (·.1))) <$> definitions t

end Docsmith.Python
