import Docsmith.Doc.Declaration
import Docsmith.Go.Strip
import Docsmith.Identifier
import Docsmith.Python.Strip

namespace Docsmith

/-!
# Languages

Finding, documenting and minifying know a language only by its operations.

* `Language`: the operations of a language.
* `Language.go`, `Language.python`: the two languages that are known.
-/

/-- What is known of a language: how its sources are read, what they declare, how documentation is
    written into them, how they are shrunk and whether they may be, and what to ask for when
    documentation is generated. -/
structure Language where
  name : String
  title : String
  extensions : List String
  parse : Bytes → Except Failure SourceTree
  declarations : SourceTree → Except Failure (List Declaration)
  renderDoc : DocSlot → String → Bytes
  strip : SourceTree → MinifyStep → Except Failure SourceTree
  instructions : (identifier target file : String) → String
  minifierEnabled : Bool := true

namespace Language

/-- The place of a symbol in a request. -/
def origin (file : String) : String := if file.isEmpty then "" else " from " ++ file

/-- The last part of an address: what follows the first colon, and in it the last dot. -/
def simpleName (identifier : String) : String :=
  let path := match Identifier.cutAt ':' identifier.toList with
    | some (_, path) => path
    | none => identifier.toList
  String.ofList (path.reverse.takeWhile (· != '.')).reverse

/-- What to ask for a Go symbol. -/
def goInstructions (identifier target file : String) : String :=
  let simple := simpleName identifier
  "Write a GoDoc comment for " ++ target ++ origin file
    ++ ". Do not include external links, source code or code examples.\n\n"
    ++ "Describe what " ++ simple ++ " does, not what it technically is. "
    ++ "For a function that adds two integers, write \"adds two integers\", "
    ++ "not \"function that adds two integers\".\n\n"
    ++ "Enclose references to other types in brackets, "
    ++ "for example \"returns a [*Foo]\".\n\n"
    ++ "Begin the comment exactly with \"" ++ simple ++ " \" and keep the style of the "
    ++ "Go standard library documentation. Keep it as short as possible while "
    ++ "still being descriptive.\n\n"
    ++ "Output only the comment text, without comment markers (//).\n\n"
    ++ "Here is the source code for reference:"

/-- What to ask for a Python symbol. -/
def pythonInstructions (_identifier target file : String) : String :=
  "Write the documentation for " ++ target ++ origin file ++ " in the style of a "
    ++ "PEP 257 docstring. Do not include external links, source code or "
    ++ "code examples.\n\n"
    ++ "Start with a one-line summary in the imperative mood that describes "
    ++ "what it does, not what it technically is. Add a short paragraph "
    ++ "only when the behavior is not obvious from the summary.\n\n"
    ++ "Output only the documentation text, without quotes or comment markers.\n\n"
    ++ "Here is the source code for reference:"

/-- Go. -/
def go : Language where
  name := "go"
  title := "Go"
  extensions := [".go"]
  parse := Go.parseTree
  declarations := Go.declarations
  renderDoc := fun slot text => slot.renderLine "//" text
  strip := Go.strip
  instructions := goInstructions

/-- Python. -/
def python : Language where
  name := "python"
  title := "Python"
  extensions := [".py"]
  parse := Python.parseTree
  declarations := Python.declarations
  renderDoc := Python.renderDoc
  strip := Python.strip
  instructions := pythonInstructions

end Language

end Docsmith
