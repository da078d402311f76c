import Docsmith.Cli.Arguments
import Docsmith.Settings.Environment

namespace Docsmith.Cli

/-!
# Commands

* `Command`: what the program is asked to do.
* `Command.parse`: the command of a command line.
* `Command.overrides`: the settings that a command line gives.
-/

/-- Which symbols of which folder a command is about. -/
structure Selection where
  root : String := "."
  matching : List String := []
  includes : List String := []
  excludes : List String := []
deriving DecidableEq, Repr

/-- What becomes of a patch: it is shown, committed or written. -/
structure Writing where
  dryRun : Bool := false
  commit : Bool := false
  branch : Option String := none
deriving DecidableEq, Repr

/-- How documentation is generated. -/
structure Generation where
  provider : Option String := none
  model : Option String := none
  limit : Option Int := none
  fileLimit : Option Int := none
  perFileLimit : Option Int := none
  workers : List Int := []
  override : Bool := false
  strict : Bool := false
  footer : Option String := none
  forceMinify : Bool := false
deriving DecidableEq, Repr

/-- What the program is asked to do. -/
inductive Command where
  | find (selection : Selection) (tests documented json : Bool)
  | generate (selection : Selection) (generation : Generation) (writing : Writing)
  | clear (selection : Selection) (writing : Writing)
  | minify (file : String) (maxTokens : Int) (model : Option String) (force : Bool)
deriving DecidableEq, Repr

/-! ### What commands take -/

/-- The name of the program. -/
def programName : String := "docpilot"

/-- The version of the program. -/
def programVersion : String := "0.1.0"

/-- The option that shows help. -/
def helpOption : OptionSpec := { names := ["-h", "--help"], effect := .help }

/-- An option without values. -/
def flagOption (name : String) : OptionSpec := { names := [name] }

/-- An option with a text as its value. -/
def textOption (name : String) : OptionSpec := { names := [name], arity := 1 }

/-- An option with an integer as its value. -/
def integerOption (name : String) : OptionSpec := { names := [name], arity := 1, sort := .integer }

/-- The options that select symbols. -/
def selectionOptions : List OptionSpec :=
  [textOption "--match", textOption "--include", textOption "--exclude"]

/-- The options about what becomes of a patch. -/
def writingOptions : List OptionSpec :=
  [flagOption "--dry-run", flagOption "--commit", textOption "--branch"]

/-- The options of each command. -/
def commandOptions : List (String × List OptionSpec × Operand) :=
  [("find", selectionOptions
      ++ [flagOption "--tests", flagOption "--documented", flagOption "--json"],
    .optional "root"),
   ("generate", selectionOptions
      ++ [{ names := ["--provider"], arity := 1, sort := .choice ["openai", "anthropic"] },
          textOption "--model", integerOption "--limit", integerOption "--file-limit",
          integerOption "--per-file-limit",
          { names := ["--workers"], arity := 2, sort := .integer },
          flagOption "--override", flagOption "--strict", textOption "--footer",
          flagOption "--force-minify"]
      ++ writingOptions,
    .optional "root"),
   ("clear", selectionOptions ++ writingOptions, .optional "root"),
   ("minify",
    [integerOption "--max-tokens", textOption "--model", flagOption "--force"],
    .required "file")]

/-- What the program itself takes. -/
def programUsage : Usage where
  program := programName
  options := [helpOption, { names := ["--verbose", "-v"] },
    { names := ["--version"], effect := .version }]
  operand := .command "COMMAND" (commandOptions.map (·.1))

/-- What a command takes. -/
def commandUsage (name : String) : Usage :=
  let (options, operand) := (commandOptions.lookup name).getD ([], .optional "root")
  { program := programName ++ " " ++ name, options := helpOption :: options, operand := operand }

/-! ### Reading command lines -/

/-- The selection of a command line. -/
def Parsed.selection (p : Parsed) : Selection :=
  { root := p.operand.headD ".", matching := p.values "--match", includes := p.values "--include",
    excludes := p.values "--exclude" }

/-- What a command line says about a patch. -/
def Parsed.writing (p : Parsed) : Writing :=
  { dryRun := p.flag "--dry-run", commit := p.flag "--commit", branch := p.value? "--branch" }

/-- What a command line says about generation. -/
def Parsed.generation (p : Parsed) : Generation :=
  let integer? (name : String) : Option Int := (p.integers? name).bind (·.head?)
  { provider := p.value? "--provider", model := p.value? "--model", limit := integer? "--limit",
    fileLimit := integer? "--file-limit", perFileLimit := integer? "--per-file-limit",
    workers := (p.integers? "--workers").getD [], override := p.flag "--override",
    strict := p.flag "--strict", footer := p.value? "--footer",
    forceMinify := p.flag "--force-minify" }

namespace Command

/-- The command of a name with what its command line gives. -/
def ofParsed (name : String) (p : Parsed) : Command :=
  if name == "find" then
    find p.selection (p.flag "--tests") (p.flag "--documented") (p.flag "--json")
  else if name == "generate" then generate p.selection p.generation p.writing
  else if name == "clear" then clear p.selection p.writing
  else
    minify (p.operand.headD "") (((p.integers? "--max-tokens").bind (·.head?)).getD 0)
      (p.value? "--model") (p.flag "--force")

/-- The command of a command line, if it names one.  Arguments that nobody knows are refused last.
    -/
def parse (args : List String) : Except Stop (Option Command) := do
  let outer ← programUsage.parse args
  let refuse (extras : List String) : Except Stop Unit :=
    if extras.isEmpty then .ok ()
    else .error (programUsage.misuse ("unrecognized arguments: " ++ " ".intercalate extras))
  match outer.operand with
  | [] =>
    refuse outer.extras
    return none
  | name :: rest =>
    let inner ← (commandUsage name).parse rest
    refuse (outer.extras ++ inner.extras)
    return some (ofParsed name inner)

/-- The folder that a command works in. -/
def root : Command → String
  | find s _ _ _ => s.root
  | generate s _ _ => s.root
  | clear s _ => s.root
  | minify file _ _ _ => Path.parent file

/-- A list as a setting, unless it is empty. -/
def listSetting? (xs : List String) : Option Json :=
  if xs.isEmpty then none else some (.list (xs.map .text))

/-- What a selection says about settings. -/
def selectionLayer (s : Selection) : Layer
  | .matching => listSetting? s.matching
  | .includes => listSetting? s.includes
  | .excludes => listSetting? s.excludes
  | _ => none

/-- What a generation says about settings.  A provider without a model takes the place of the model
    too. -/
def generationLayer (g : Generation) : Layer
  | .provider => g.provider.map .text
  | .model =>
    match g.model with
    | some m => some (.text m)
    | none => if g.provider.isSome then some (.text "") else none
  | .limit => g.limit.map fun n => .num (.int n)
  | .fileLimit => g.fileLimit.map fun n => .num (.int n)
  | .perFileLimit => g.perFileLimit.map fun n => .num (.int n)
  | .fileWorkers => g.workers.head?.map fun n => .num (.int n)
  | .symbolWorkers => (g.workers.drop 1).head?.map fun n => .num (.int n)
  | .footer => g.footer.map .text
  | .forceMinify => if g.forceMinify then some (.bool true) else none
  | _ => none

/-- What is said about a patch in terms of settings. -/
def writingLayer (w : Writing) : Layer
  | .branch => w.branch.map .text
  | _ => none

/-- The settings that a command line gives. -/
def overrides : Command → Layer
  | find s _ _ _ => selectionLayer s
  | generate s g w => (selectionLayer s).onto ((generationLayer g).onto (writingLayer w))
  | clear s w => (selectionLayer s).onto (writingLayer w)
  | minify .. => fun _ => none

end Command

end Docsmith.Cli
