import Docsmith.Cli.Session

namespace Docsmith.Cli

/-!
# The program

The outer layer of the command line: it reads the files below the current directory and the
variables, runs the command line, shows the events and writes the files that changed.  It has
neither a network nor git at hand, so requests and git commands fail with a message that says so.
-/

/-- A file or directory on disk with all that is below it; git's own directory is left out, and so
    is what cannot be read. -/
partial def readEntry (e : IO.FS.DirEntry) : IO (Option Entry) := do
  if e.fileName == ".git" then return none
  try
    let below ← e.path.readDir
    return some (.dir e.fileName (← below.toList.filterMapM readEntry))
  catch _ =>
    try return some (.file e.fileName (← IO.FS.readBinFile e.path).toList)
    catch _ => return none

/-- The files below the current directory. -/
def readDisk : IO FileTree := do
  let here ← IO.currentDir
  let found ← here.readDir
  found.toList.filterMapM readEntry

/-- The variables that settings may come from. -/
def readEnvironment : IO Environment := do
  let names := Setting.all.map Setting.variableName ++ ["OPENAI_API_KEY", "ANTHROPIC_API_KEY"]
  names.filterMapM fun name => return (← IO.getEnv name).map fun value => (name, value)

/-- The files that differ from those before. -/
def changedFiles (before after : FileTree) : List (String × Bytes) :=
  let old := before.files
  after.files.filter fun (path, content) => old.lookup path != some content

/-- Writes files to disk. -/
def writeFiles (files : List (String × Bytes)) : IO Unit :=
  files.forM fun (path, content) => do
    IO.FS.createDirAll (Path.parent path)
    IO.FS.writeBinFile path ⟨content.toArray⟩

/-- An event as lines of text. -/
def Event.text : Event → String
  | line s => s
  | table rows => "\n".intercalate (rows.map fun cells => "  ".intercalate cells)
  | document value => value.write
  | heading title => "--- " ++ title ++ " ---"
  | source code _ => code

/-- How the program is called. -/
def usageLine (program : String) : String :=
  "usage: " ++ program ++ " [options] ["
    ++ ", ".intercalate (commandOptions.map (·.1)) ++ "] [arguments]"

/-- Surroundings without a network and without git. -/
def offline (env : Environment) (millis : Nat) : Surroundings Unit where
  environment := env
  git := fun _ => { code := 127, stderr := "git is not at hand" }
  millis := millis
  transport := fun _ s => (.error (.raised .connect "the network is not at hand"), s)

/-- Runs a command line on the current directory, and gives the status. -/
def runProgram (args : List String) : IO UInt32 := do
  let disk ← readDisk
  let around := offline (← readEnvironment) (← IO.monoMsNow)
  let (ending, s) := Session.run { disk := disk, exchange := { transport := () } } around args
  s.events.forM fun e => IO.println e.text
  writeFiles (changedFiles disk s.disk)
  match ending with
  | .noCommand => IO.println (usageLine programName)
  | .stopped (.help program) => IO.println (usageLine program)
  | .stopped .version => IO.println (programName ++ " " ++ programVersion)
  | .stopped stop => IO.eprintln stop.message
  | .finished _ => pure ()
  return UInt32.ofNat ending.status.toNat

end Docsmith.Cli

/-- The program. -/
def main (args : List String) : IO UInt32 := Docsmith.Cli.runProgram args
