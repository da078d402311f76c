import Docsmith.Failure
import Docsmith.Identifier
import Docsmith.Service.Fault

namespace Docsmith

/-!
# What is generated

* `Input`: a symbol to document, with the source of its file.
* `Context`: what a service gets to see of it, and `Context.prompt`, the request.
* `Documentation`, `GeneratedFile`: what came out.
* `Cause`, `GenerationError`: what went wrong with a symbol.
-/

/-- A symbol to document, with the source of its file. -/
structure Input where
  code : Bytes
  language : String
  identifier : String
  file : String := ""
  target : String := ""
deriving DecidableEq, Repr

/-- The description of the symbol: the one given, or else the one its identifier tells. -/
def Input.display (i : Input) : String :=
  if i.target.isEmpty then Identifier.target i.identifier else i.target

/-- What a service gets to see of a symbol. -/
structure Context where
  input : Input
  instructions : String
  code : String
deriving DecidableEq, Repr

/-- The text of the request: instructions, the file and its code. -/
def Context.prompt (c : Context) : String :=
  let header := if c.input.file.isEmpty then "" else "# " ++ c.input.file ++ "\n"
  c.instructions ++ "\n---\n" ++ header ++ c.code

/-- Documentation for a symbol. -/
structure Documentation where
  input : Input
  text : String
deriving DecidableEq, Repr

/-- The documentation that came out for a file. -/
structure GeneratedFile where
  path : String
  docs : List Documentation := []
deriving DecidableEq, Repr

/-- Why a symbol has no documentation: its source, or the service. -/
inductive Cause where
  | source (failure : Failure)
  | service (fault : ServiceFault)

/-- A cause in words. -/
def Cause.message : Cause → String
  | source f => f.message
  | service f => f.message

/-- A symbol that could not be documented. -/
structure GenerationError where
  input : Input
  cause : Cause

/-- The error in words. -/
def GenerationError.message (e : GenerationError) : String :=
  e.input.file ++ "@" ++ e.input.identifier ++ ": " ++ e.cause.message

/-- The warning about a symbol that could not be documented. -/
def GenerationError.warning (e : GenerationError) : String :=
  "Generation failed for " ++ e.message

end Docsmith
