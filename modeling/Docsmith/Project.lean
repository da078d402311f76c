import Docsmith.Files.Discovery
import Docsmith.Find.Finding
import Docsmith.Generate.Run
import Docsmith.Patch.Basic
import Docsmith.Regex.Basic

namespace Docsmith

/-!
# Documenting a repository

* `Project`: a folder with the languages and the symbols that count.
* `Project.find`: its symbols without documentation.
* `Project.inputs`: what is asked about them, by file.
* `Project.generate`: documentation for them, as a patch.
* `Project.clear`: a patch that removes their documentation.
-/

/-- A folder of sources, the languages in it, and the expressions of which the identifier of a
    symbol must match one; without any, all symbols count. -/
structure Project where
  folder : Folder
  languages : Languages := Languages.default
  matching : List Regex := []

/-- Which files and which of their symbols are looked for. -/
structure Search where
  includes : List String := []
  excludes : List String := defaultExclude
  options : FindOptions := {}

/-- What went wrong with a symbol: generating its documentation, or patching it. -/
inductive SymbolError where
  | generation (e : GenerationError)
  | patching (f : Failure)

/-- The error in words. -/
def SymbolError.message : SymbolError → String
  | generation e => e.message
  | patching f => f.message

/-- Why nothing was generated: a source, or in strict mode the symbols that failed. -/
inductive ProjectFailure where
  | source (f : Failure)
  | symbols (errors : List SymbolError)

/-- The cause in words. -/
def ProjectFailure.message : ProjectFailure → String
  | source f => f.message
  | symbols errors =>
    "documentation generation failed for " ++ toString errors.length ++ " symbol(s)"

/-- What was generated: the patch, the documentation in it, and the symbols that failed. -/
structure GenerationResult where
  patch : Patch
  docs : List Documentation := []
  errors : List SymbolError := []

/-- What patching some documentation came to: the patch, the symbols that failed with their
    warnings, and the failure that stopped it. -/
structure Patching where
  patch : Patch
  errors : List SymbolError := []
  warnings : List String := []
  failure : Option Failure := none

/-- A failure that concerns a symbol only: it is not there or documented, or its file cannot be
    parsed. -/
def Failure.concernsSymbol : Failure → Bool
  | .symbolNotFound .. | .alreadyDocumented .. | .unparsable .. => true
  | _ => false

namespace Project

/-- The identifier counts. -/
def wants (p : Project) (identifier : String) : Bool :=
  p.matching.isEmpty || p.matching.any (·.search identifier)

/-- The source files that are looked at. -/
def sources (p : Project) (disk : FileTree) (s : Search) : List String :=
  let filter : FileFilter :=
    { extensions := p.languages.extensions, includes := s.includes, excludes := s.excludes }
  filter.discover (p.folder.entries disk)

/-- The findings of a file. -/
def findIn (p : Project) (disk : FileTree) (s : Search) (file : String) :
    Except Failure (List Finding) := do
  match p.languages.forFile? file with
  | none => return []
  | some l =>
    let code ← p.folder.read disk file
    let found ← (s.options.find l code file).mapError (·.inFile file)
    return found.filter fun f => p.wants f.identifier

/-- The findings of all files, in order. -/
def find (p : Project) (disk : FileTree) (s : Search) : Except Failure (List Finding) := do
  let found ← (p.sources disk s).mapM (p.findIn disk s)
  return Finding.sort found.flatten

/-- Adds an input to those of its file. -/
def addInput (i : Input) : List (String × List Input) → List (String × List Input)
  | [] => [(i.file, [i])]
  | (file, is) :: rest =>
    if file == i.file then (file, is ++ [i]) :: rest else (file, is) :: addInput i rest

/-- The input of a finding. -/
def inputOf (p : Project) (disk : FileTree) (f : Finding) : Except Failure Input := do
  let code ← p.folder.read disk f.file
  let language ← if f.language.isEmpty then
      match p.languages.forFile? f.file with
      | some l => pure l.name
      | none => .error (.unknownLanguage f.file)
    else pure f.language
  return { code := code, language := language, identifier := f.identifier, file := f.file,
           target := f.target }

/-- What is asked about findings, by file, files and findings in the order in which they came up. -/
def inputs (p : Project) (disk : FileTree) (fs : List Finding) :
    Except Failure (List (String × List Input)) := do
  let is ← fs.mapM (p.inputOf disk)
  return is.foldl (fun groups i => addInput i groups) []

/-- Documentation by file and identifier. -/
def sortDocs (docs : List Documentation) : List Documentation :=
  docs.mergeSort fun a b =>
    Text.inOrder [a.input.file, a.input.identifier] [b.input.file, b.input.identifier]

/-- The warning about documentation that could not be patched in. -/
def skipWarning (d : Documentation) (f : Failure) : String :=
  "Skipping " ++ d.input.file ++ "@" ++ d.input.identifier ++ ": " ++ f.message

/-- Puts one piece of documentation into a patch. -/
def patchDoc (disk : FileTree) (state : Patching) (d : Documentation) : Patching :=
  if state.failure.isSome then state
  else match state.patch.comment disk d.input.file d.input.identifier d.text with
    | (.ok (), patch) => { state with patch := patch }
    | (.error f, patch) =>
      if f.concernsSymbol then
        { state with
          patch := patch
          errors := state.errors ++ [.patching f]
          warnings := state.warnings ++ [skipWarning d f] }
      else { state with patch := patch, failure := some f }

/-- Puts documentation into a new patch. -/
def patchDocs (p : Project) (disk : FileTree) (override : Bool) (docs : List Documentation) :
    Patching :=
  docs.foldl (patchDoc disk)
    { patch := { folder := p.folder, languages := p.languages, override := override } }

/-- What comes of a run that has ended: its documentation as a patch.  In strict mode any symbol
    that failed fails all. -/
def collect {σ : Type} (p : Project) (disk : FileTree) (override strict : Bool) (r : Run σ) :
    Except ProjectFailure GenerationResult × List String :=
  let errors := r.failed.map SymbolError.generation
  if strict && !errors.isEmpty then (.error (.symbols errors), r.warnings)
  else
    let docs := sortDocs (r.generated.flatMap (·.docs))
    let patching := p.patchDocs disk override docs
    let errors := errors ++ patching.errors
    let warnings := r.warnings ++ patching.warnings
    match patching.failure with
    | some f => (.error (.source f), warnings)
    | none =>
      if strict && !errors.isEmpty then (.error (.symbols errors), warnings)
      else (.ok { patch := patching.patch, docs := docs, errors := errors }, warnings)

/-- Generates documentation for findings.  The run is there unless the inputs could not be read. -/
def generate {σ : Type} (p : Project) (disk : FileTree) (fs : List Finding) (g : Generator)
    (service : Service σ) (state : σ) (override strict : Bool) :
    Except ProjectFailure GenerationResult × List String × Option (Run σ) :=
  match p.inputs disk fs with
  | .error f => (.error (.source f), [], none)
  | .ok inputs =>
    let g := { g with languages := p.languages }
    let r := (Run.start g inputs state).drive g service
    let (result, warnings) := p.collect disk override strict r
    (result, warnings, some r)

/-- A patch that removes the documentation of findings. -/
def clear (p : Project) (disk : FileTree) (fs : List Finding) : Except Failure Patch :=
  fs.foldlM (fun (patch : Patch) f =>
    match patch.comment disk f.file f.identifier "" with
    | (.ok (), patch) => .ok patch
    | (.error e, _) => .error e)
    { folder := p.folder, languages := p.languages, override := true }

end Project

end Docsmith
