import Docsmith.Cli.Command
import Docsmith.Cli.Console
import Docsmith.Git.Commit
import Docsmith.Project
import Docsmith.Regex.Reading
import Docsmith.Settings.EnvFile
import Docsmith.Settings.Loading

namespace Docsmith.Cli

/-!
# Running commands

* `Surroundings`: what a command finds outside: variables, git, the time, a way to count tokens and
  whatever carries requests.
* `Session`: the files, what was shown and what was asked so far.
* `Work`: a piece of work in a session, which may end with a message about an error.
* `Command.run`: the work of a command and its status.
* `Session.run`: a command line from beginning to end.
-/

/-- What a command finds outside. -/
structure Surroundings (σ : Type) where
  environment : Environment := []
  git : Git
  millis : Nat
  tokenizer : Tokenizer := .words
  processors : Nat := 4
  transport : Transport σ

/-- The files, what was shown, the git commands that were run, and the exchange with the service. -/
structure Session (σ : Type) where
  disk : FileTree
  exchange : Exchange σ
  events : List Event := []
  commands : List (List String) := []

/-- A piece of work in a session, which may end with a message about an error. -/
abbrev Work (σ α : Type) := ExceptT String (StateM (Session σ)) α

namespace Work

variable {σ α ε : Type}

/-- Shows events. -/
def emit (es : List Event) : Work σ Unit :=
  modify fun s => { s with events := s.events ++ es }

/-- Shows an event. -/
def emitOne (e : Event) : Work σ Unit := emit [e]

/-- Goes on with a result, or ends with the message about its error. -/
def orEnd (result : Except ε α) (message : ε → String) : Work σ α :=
  match result with
  | .ok a => pure a
  | .error e => throw (message e)

end Work

open Work

variable {σ : Type}

/-! ### Projects -/

/-- The project of a folder with the settings. -/
def projectOf (folder : Folder) (s : Settings) : Work σ Project := do
  let sources ← orEnd (s.texts .matching) (·.message)
  let matching ← sources.mapM fun m => orEnd (Regex.parse m) (·.message m)
  return { folder := folder, matching := matching }

/-- The patterns of a setting; those given when it is empty. -/
def patterns (s : Settings) (k : Setting) (otherwise : List String) : Work σ (List String) :=
  if s.flag k then orEnd (s.texts k) (·.message) else return otherwise

/-- The findings of a project. -/
def findingsOf (p : Project) (s : Settings) (options : FindOptions) : Work σ (List Finding) := do
  let search : Search :=
    { includes := ← patterns s .includes [], excludes := ← patterns s .excludes defaultExclude,
      options := options }
  orEnd (p.find (← get).disk search) (·.message)

/-! ### Patches -/

/-- Shows every file of a patch as it would be. -/
def showPatch (patch : Patch) : Work σ Unit := do
  let files ← orEnd patch.dryRun (·.message)
  files.forM fun (path, code) => do
    let suffix := String.ofList ((Path.suffix path).toList.dropWhile (· == '.'))
    let text ← orEnd (Text.decode code) (·.message)
    emit (Event.code path text (if suffix.isEmpty then "text" else suffix))

/-- Writes the files of a patch. -/
def applyPatch (patch : Patch) : Work σ Int := do
  let s ← get
  let (failures, disk) := patch.apply patch.folder s.disk
  set { s with disk := disk }
  if failures.isEmpty then
    emitOne (.success ("Patched " ++ toString patch.fileNames.length ++ " file(s)"))
    return 0
  else
    emit (Event.failures (failures.map (·.2.message)))
    return 1

/-- Commits a patch on a branch. -/
def commitFiles (around : Surroundings σ) (folder : Folder) (patch : Patch) (branch : String) :
    Work σ Int := do
  let s ← get
  let o := commitPatch around.git around.millis patch folder s.disk branch none
  set { s with disk := o.disk, commands := s.commands ++ o.commands }
  match o.result with
  | .ok created =>
    emitOne (.success ("Committed " ++ toString patch.fileNames.length ++ " file(s) to branch "
      ++ created))
    return 0
  | .error (.apply failures) =>
    emit (Event.failures (failures.map (·.2.message)))
    return 1
  | .error (.git f) => throw f.message

/-- Shows, commits or writes a patch. -/
def writePatch (around : Surroundings σ) (folder : Folder) (patch : Patch) (w : Writing)
    (branch : String) : Work σ Int := do
  if patch.fileNames.isEmpty then
    emitOne (.dim "Nothing to patch.")
    return 0
  else if w.dryRun then
    showPatch patch
    return 0
  else if w.commit then commitFiles around folder patch branch
  else applyPatch patch

/-! ### Commands -/

/-- Lists symbols. -/
def runFind (folder : Folder) (s : Settings) (tests documented json : Bool) : Work σ Int := do
  let p ← projectOf folder s
  let fs ← findingsOf p s { includeDocumented := documented, includeTests := tests }
  emit (if json then [Event.findingsDocument fs] else Event.findings fs)
  return 0

/-- Removes documentation. -/
def runClear (around : Surroundings σ) (folder : Folder) (s : Settings) (w : Writing) :
    Work σ Int := do
  let p ← projectOf folder s
  let fs ← findingsOf p s { includeDocumented := true }
  let patch ← orEnd (p.clear (← get).disk fs) (·.message)
  writePatch around folder patch w (s.get .branch).plain

/-- The generator of the settings. -/
def generatorOf (around : Surroundings σ) (s : Settings) : Generator :=
  { processors := around.processors
    fileWorkers := s.integer .fileWorkers
    symbolWorkers := s.integer .symbolWorkers
    limit := s.integer .limit
    perFileLimit := s.integer .perFileLimit
    fileLimit := s.integer .fileLimit
    footer := s.text .footer
    tokenizer := some around.tokenizer
    maxTokens := tokenBudget (s.text .model) (s.integer .maxOutputTokens)
    forceMinify := s.flag .forceMinify }

/-- Generates documentation. -/
def runGenerate (around : Surroundings σ) (env : Environment) (folder : Folder) (s : Settings)
    (override strict : Bool) (w : Writing) : Work σ Int := do
  let p ← projectOf folder s
  let fs ← findingsOf p s {}
  if fs.isEmpty then
    emitOne (.success "No undocumented symbols found.")
    return 0
  emitOne (.info ("Generating documentation for " ++ toString fs.length ++ " symbol(s)"))
  let endpoint ← orEnd (s.endpoint env) (·.message)
  let session ← get
  let (result, _, run) := p.generate session.disk fs (generatorOf around s)
    (endpoint.service around.transport) session.exchange override strict
  set { session with exchange := (run.map Run.service).getD session.exchange }
  match result with
  | .error (.symbols errors) =>
    emit (Event.failures (errors.map (·.message)))
    return 1
  | .error f => throw f.message
  | .ok result =>
    emitOne (.dim (toString result.docs.length ++ " documentation(s) generated"))
    let status ← writePatch around folder result.patch w (s.get .branch).plain
    if result.errors.isEmpty then return status
    else
      emit (Event.failures (result.errors.map (·.message)))
      return 1

/-- Minifies a file. -/
def runMinify (around : Surroundings σ) (s : Settings) (file : String) (maxTokens : Int)
    (model : Option String) (force : Bool) : Work σ Int := do
  let path := Path.normal file
  let disk := (← get).disk
  match Languages.default.forFile? path with
  | none => throw ("Unsupported file type: " ++ path)
  | some language =>
    if !FileTree.contains (Path.parts path) disk then throw ("File not found: " ++ path)
    let model := if (model.getD "").isEmpty then s.text .model else model.getD ""
    let budget := if maxTokens == 0 then tokenBudget model else maxTokens
    let minifier : Minifier :=
      { language := language, tokenizer := around.tokenizer, maxTokens := budget, force := force }
    let code ← orEnd (Folder.read {} disk path) (·.message)
    let result ← orEnd (minifier.minify [] code "").1 fun
      | f@(.unparsable ..) => path ++ ": " ++ f.message
      | f => f.message
    let name (m : Minification) : String := (m.step.map (·.name)).getD "none"
    result.steps.forM fun m => emitOne (.dim (name m ++ ": " ++ toString m.tokens ++ " tokens"))
    emitOne (.info (toString result.chosen.tokens ++ " tokens (budget " ++ toString budget
      ++ ", step " ++ name result.chosen ++ ")"))
    let text ← orEnd (Text.decode result.code) (·.message)
    emit (Event.code path text language.name)
    return 0

/-- The work of a command, and its status. -/
def Command.run (c : Command) (around : Surroundings σ) : Work σ Int := do
  let folder := Folder.ofPath c.root
  let disk := (← get).disk
  let env := around.environment.withFile folder disk
  let s ← orEnd (loadSettings folder disk env).result (·.message)
  let s := Settings.ofLayer (c.overrides.onto s.toLayer)
  match c with
  | .find _ tests documented json => runFind folder s tests documented json
  | .generate _ g w => runGenerate around env folder s g.override g.strict w
  | .clear _ w => runClear around folder s w
  | .minify file maxTokens model force => runMinify around s file maxTokens model force

/-! ### Command lines -/

/-- How a command line ended: with a status, or with help, the version or a complaint shown. -/
inductive Ending where
  | finished (status : Int)
  | noCommand
  | stopped (stop : Stop)

/-- The status of the program. -/
def Ending.status : Ending → Int
  | finished status => status
  | noCommand => 1
  | stopped (.misuse ..) => 2
  | stopped _ => 0

/-- A command line from beginning to end.  An error is shown, and makes the status one. -/
def Session.run (s : Session σ) (around : Surroundings σ) (args : List String) :
    Ending × Session σ :=
  match Command.parse args with
  | .error stop => (.stopped stop, s)
  | .ok none => (.noCommand, s)
  | .ok (some command) =>
    match (ExceptT.run (command.run around)).run s with
    | (.ok status, s) => (.finished status, s)
    | (.error message, s) =>
      (.finished 1, { s with events := s.events ++ [.error message] })

end Docsmith.Cli
