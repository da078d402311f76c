import Docsmith.Minify.Step
import Docsmith.Text.Utf8

namespace Docsmith

open Text

/-!
# What can go wrong with a source

* `OsReason`, `Failure`: the causes.
* `Failure.message`: their wording.
* `Failure.inFile`: a syntax error told by file rather than by line alone.
-/

/-- Why the file system refused. -/
inductive OsReason where
  | notFound
  | isDirectory
  | notDirectory
  | exists
deriving DecidableEq, Repr

/-- The number and wording of a refusal. -/
def OsReason.text : OsReason → String
  | .notFound => "[Errno 2] No such file or directory"
  | .isDirectory => "[Errno 21] Is a directory"
  | .notDirectory => "[Errno 20] Not a directory"
  | .exists => "[Errno 17] File exists"

/-- A cause of failure. -/
inductive Failure where
  /-- a source breaks the grammar of its language at a row, counted from zero -/
  | unparsable (language : String) (row : Int) (file : String)
  /-- a part of a source is no text -/
  | notText (fault : DecodeFault)
  /-- a definition has no statement in its body -/
  | emptyBody
  /-- there are fewer steps of minification than asked for -/
  | noStep
  /-- there is no output of a step that far from the end -/
  | noStage
  /-- nothing is known of a language or of the language of a file -/
  | unknownLanguage (key : String)
  /-- an identifier names nothing in a file -/
  | symbolNotFound (file identifier : String)
  /-- a symbol has documentation that must not be replaced -/
  | alreadyDocumented (file identifier : String)
  /-- the file system refused -/
  | os (reason : OsReason) (path : String)
  /-- no step of minification brings a source within the budget -/
  | tooLarge (maxTokens : Int) (tokens : Nat) (result : MinifyResult)

/-- A cause in words. -/
def Failure.message : Failure → String
  | .unparsable language row file =>
    "failed to parse " ++ language ++ " source at "
      ++ (if file.isEmpty then "line " else file ++ ":") ++ toString (row + 1)
  | .notText fault => fault.message
  | .emptyBody => "list index out of range"
  | .noStep => "tuple index out of range"
  | .noStage => "list index out of range"
  | .unknownLanguage key => "no language registered for " ++ quote key
  | .symbolNotFound file identifier => file ++ ": no declaration matches " ++ quote identifier
  | .alreadyDocumented file identifier =>
    file ++ ": " ++ quote identifier ++ " is already documented"
  | .os reason path => reason.text ++ ": " ++ quote path
  | .tooLarge maxTokens tokens _ =>
    "source is too large to be minified to " ++ toString maxTokens
      ++ " tokens (minified source has " ++ toString tokens ++ " tokens)"

/-- A syntax error is told with the file it is in; other causes stay as they are. -/
def Failure.inFile (file : String) : Failure → Failure
  | .unparsable language row _ => .unparsable language row file
  | f => f

end Docsmith
