import Docsmith.Git.Message
import Docsmith.Patch.Basic

namespace Docsmith

open Text

/-!
# Committing patches

A patch is applied and committed on a new branch, by a sequence of git commands that stops at the
first one that fails.

* `Git`: how git answers commands.
* `Git.call`: a command that must succeed.
* `commitPatch`: the commands of a commit, and what became of it.
-/

/-- The answer of git to a command. -/
structure GitReply where
  code : Int := 0
  stdout : String := ""
  stderr : String := ""
deriving DecidableEq, Repr

/-- How git answers the arguments of a command. -/
abbrev Git := List String → GitReply

/-- A command that failed. -/
structure GitFailure where
  command : List String
  code : Int
  output : String
deriving DecidableEq, Repr

/-- A failed command in words. -/
def GitFailure.message (f : GitFailure) : String :=
  " ".intercalate ("git" :: f.command) ++ " failed (" ++ toString f.code ++ "): " ++ trim f.output

/-- Runs a command; unless told otherwise it must succeed. -/
def Git.call (git : Git) (command : List String) (check : Bool := true) :
    Except GitFailure GitReply :=
  let r := git command
  if check && r.code != 0 then
    .error ⟨command, r.code, if r.stderr.isEmpty then r.stdout else r.stderr⟩
  else .ok r

/-- The branch of a commit that is given none. -/
def defaultBranch : String := "docpilot-patch"

/-- Why a patch was not committed: a command failed, or files could not be patched. -/
inductive CommitFailure where
  | git (failure : GitFailure)
  | apply (failures : List (String × Failure))

/-- The cause in words. -/
def CommitFailure.message : CommitFailure → String
  | .git f => f.message
  | .apply failures => Patch.applyMessage failures

/-- What became of a commit: the branch or the failure, the commands that were run, and the files
    after it. -/
structure CommitOutcome where
  result : Except CommitFailure String
  commands : List (List String)
  disk : FileTree

/-- The command that looks for a branch. -/
def branchQuery (branch : String) : List String := ["rev-parse", "--verify", "--quiet", branch]

/-- The command that commits with a message. -/
def commitCommand (m : CommitMessage) : List String :=
  "commit" :: m.paragraphs.flatMap fun p => ["-m", p]

/-- Applies a patch on a new branch and commits it.  A branch that is there already gets the time in
    milliseconds behind its name. -/
def commitPatch (git : Git) (millis : Nat) (p : Patch) (target : Folder) (disk : FileTree)
    (branch : String) (message : Option CommitMessage) : CommitOutcome :=
  let query := branchQuery branch
  let branch := if (git query).code == 0 then branch ++ "_" ++ toString millis else branch
  let message := message.getD (.forSymbols p.identifiers)
  let checkout := ["checkout", "-b", branch]
  match git.call checkout with
  | .error f => ⟨.error (.git f), [query, checkout], disk⟩
  | .ok _ =>
    match p.apply target disk with
    | (failure :: failures, disk) =>
      ⟨.error (.apply (failure :: failures)), [query, checkout], disk⟩
    | ([], disk) =>
      let add := ["add", "."]
      match git.call add with
      | .error f => ⟨.error (.git f), [query, checkout, add], disk⟩
      | .ok _ =>
        let commit := commitCommand message
        match git.call commit with
        | .error f => ⟨.error (.git f), [query, checkout, add, commit], disk⟩
        | .ok _ => ⟨.ok branch, [query, checkout, add, commit], disk⟩

end Docsmith
