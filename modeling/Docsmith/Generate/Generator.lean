import Docsmith.Generate.Race
import Docsmith.Language.Registry
import Docsmith.Minify.Minifier

namespace Docsmith

open Text

/-!
# Generators

* `Generator`: the settings of a run.
* `Generator.tokenizerFor`: whether the requests for a language are counted, and with what.
* `Generator.context`: the context of a symbol, minified when its requests are counted.
* `Generator.finish`: an answer as documentation.
* `Generator.generate`: the documentation of a single symbol.
-/

/-- The settings of a run.  A worker count of zero stands for the usual one, which depends on the
    processors there are, and a limit of zero for none. -/
structure Generator where
  languages : Languages := Languages.default
  processors : Nat := 4
  fileWorkers : Int := 0
  symbolWorkers : Int := 0
  limit : Int := 0
  perFileLimit : Int := 0
  fileLimit : Int := 0
  footer : String := ""
  tokenizer : Option Tokenizer := none
  maxTokens : Int := defaultMaxTokens
  steps : List MinifyStep := MinifyStep.defaults
  forceMinify : Bool := false

/-- The outputs of minification that are known, by the name of the language. -/
abbrev StageCaches := List (String × StageCache)

namespace StageCaches

/-- What is known for a language. -/
def get (cs : StageCaches) (language : String) : StageCache :=
  ((cs.find? (·.1 == language)).map (·.2)).getD []

/-- Replaces what is known for a language, or adds it. -/
def put (language : String) (cache : StageCache) : StageCaches → StageCaches
  | [] => [(language, cache)]
  | (k, old) :: rest =>
    if k == language then (k, cache) :: rest else (k, old) :: put language cache rest

end StageCaches

/-- A context, what is known of minification after it was built, and warnings. -/
structure BuiltContext where
  result : Except Failure Context
  caches : StageCaches
  warnings : List String := []

namespace Generator

/-- The usual number of workers: one for each processor, up to a cap. -/
def usualWorkers (g : Generator) (cap : Nat) : Nat := max 1 (min cap g.processors)

/-- The number of workers when some are asked for; there is always one. -/
def workerCount (g : Generator) (asked : Int) (cap : Nat) : Nat :=
  if asked == 0 then g.usualWorkers cap else (max 1 asked).toNat

/-- The number of workers for the files of a run. -/
def fileWorkerCount (g : Generator) : Nat := g.workerCount g.fileWorkers 4

/-- The number of workers for the symbols of a file. -/
def symbolWorkerCount (g : Generator) : Nat := g.workerCount g.symbolWorkers 2

/-- The minifier of a language. -/
def minifier (g : Generator) (l : Language) (tokenizer : Tokenizer) : Minifier :=
  { language := l, tokenizer := tokenizer, maxTokens := g.maxTokens, steps := g.steps,
    force := g.forceMinify, cached := true }

/-- What the requests for a language are counted with: nothing, unless there is a tokenizer and
    the language lets its sources be minified. -/
def tokenizerFor (g : Generator) (l : Language) : Option Tokenizer :=
  if l.minifierEnabled then g.tokenizer else none

/-- The context of a symbol with some bytes of code. -/
def contextOf (input : Input) (instructions : String) (code : Bytes) : Except Failure Context :=
  match decode code with
  | .ok s => .ok ⟨input, instructions, s⟩
  | .error fault => .error (.notText fault)

/-- The context of a symbol.  If its requests are counted, the code is minified until the whole
    request keeps within the budget. -/
def context (g : Generator) (caches : StageCaches) (input : Input) : BuiltContext :=
  match g.languages.get input.language with
  | .error f => { result := .error f, caches := caches }
  | .ok l =>
    let instructions := l.instructions input.identifier input.display input.file
    match g.tokenizerFor l with
    | none => { result := contextOf input instructions input.code, caches := caches }
    | some tokenizer =>
      let preamble := Context.prompt ⟨input, instructions, ""⟩
      let (minified, cache) :=
        (g.minifier l tokenizer).minify (caches.get l.name) input.code preamble
      let caches := caches.put l.name cache
      match minified with
      | .error f => { result := .error f, caches := caches }
      | .ok r =>
        { result := contextOf input instructions r.code, caches := caches,
          warnings := (r.warning? g.maxTokens).toList }

/-- An answer without blanks at its ends, and with the footer. -/
def finish (g : Generator) (answer : String) : String :=
  if g.footer.isEmpty then trim answer else trim answer ++ "\n\n" ++ g.footer

end Generator

end Docsmith
