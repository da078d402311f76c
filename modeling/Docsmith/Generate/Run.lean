import Docsmith.Generate.Generator
import Docsmith.Generate.Pool

namespace Docsmith

/-!
# Runs

A run takes files through a pool of workers, and the symbols of each file through a pool of its own.
What the workers do between two points at which they wait is one move, so that every way in which
they may take turns is a list of moves.

* `SymbolJob`, `FileJob`, `Run`: the state of a run.
* `Move`: what can happen next.
* `Run.step`: what happens; a move that is not possible changes nothing.
* `Run.drive`: a run in which the workers take turns.
-/

/-- What a worker is doing for a symbol: building the context, about to ask the service, or waiting
    for its answer. -/
inductive SymbolJob where
  | building (input : Input)
  | asking (context : Context)
  | waiting (input : Input) (answer : Answer)

/-- The symbol that a worker is busy with. -/
def SymbolJob.input : SymbolJob → Input
  | building i => i
  | asking c => c.input
  | waiting i _ => i

/-- A file that is open: the pool of its symbols, how many were started, and what came out. -/
structure FileJob where
  path : String
  pool : Pool Input SymbolJob
  started : Nat := 0
  docs : List Documentation := []

/-- A question to the service, and whether the run was cancelled when it was asked. -/
structure ServiceCall where
  context : Context
  cancelled : Bool

/-- The state of a run.  The two streams of results end in `none` once they are closed. -/
structure Run (σ : Type) where
  pool : Pool (String × List Input) FileJob
  service : σ
  cancelled : Bool := false
  started : Nat := 0
  dispatched : Nat := 0
  files : List (Option GeneratedFile) := []
  errors : List (Option GenerationError) := []
  closed : Bool := false
  caches : StageCaches := []
  calls : List ServiceCall := []
  warnings : List String := []

/-- What can happen next in a run: a worker for files goes on, a worker for the symbols of the file
    that another has open goes on, an answer arrives, waiting for it is given up, the run is
    cancelled, or its streams are closed. -/
inductive Move where
  | file (worker : Nat)
  | symbol (worker symbol : Nat)
  | answer (worker symbol : Nat)
  | abandon (worker symbol : Nat)
  | cancel
  | close
deriving DecidableEq, Repr

namespace Run

variable {σ : Type}

/-- A limit that is set is reached. -/
def reached (limit : Int) (count : Nat) : Bool := limit != 0 && limit ≤ count

/-- A run with all files waiting. -/
def start (g : Generator) (files : List (String × List Input)) (service : σ)
    (cancelled : Bool := false) : Run σ :=
  { pool := Pool.start g.fileWorkerCount files, service := service, cancelled := cancelled }

/-- Another file may be opened. -/
def admitsFile (g : Generator) (r : Run σ) : Bool :=
  !reached g.limit r.started && !reached g.fileLimit r.dispatched

/-- Another symbol of a file may be started. -/
def admitsSymbol (g : Generator) (r : Run σ) (job : FileJob) : Bool :=
  !reached g.limit r.started && !reached g.perFileLimit job.started

/-- The file that a worker has open. -/
def job? (r : Run σ) (w : Nat) : Option FileJob := (r.pool.slots[w]?).bind Slot.job?

/-- A file with nothing done yet. -/
def openFile (g : Generator) (path : String) (inputs : List Input) : FileJob :=
  { path := path, pool := Pool.start g.symbolWorkerCount inputs }

/-- The run with a worker's file changed. -/
def setJob (r : Run σ) (w : Nat) (job : FileJob) : Run σ :=
  { r with pool := r.pool.set w (.busy job) }

/-- A worker for files goes on: it takes the next file, or is done with the one it has open when all
    the workers for its symbols are gone. -/
def stepFile (g : Generator) (r : Run σ) (w : Nat) : Run σ :=
  match r.pool.slots[w]? with
  | some .idle =>
    match Pool.next r.cancelled (fun _ => r.admitsFile g) r.pool.queue with
    | (none, queue) => { r with pool := { r.pool with queue := queue }.set w .gone }
    | (some (path, inputs), queue) =>
      { r with
        pool := { r.pool with queue := queue }.set w (.busy (openFile g path inputs))
        dispatched := r.dispatched + 1 }
  | some (.busy job) =>
    if job.pool.done then
      { r with
        pool := r.pool.set w .idle
        files := if job.docs.isEmpty then r.files
          else r.files ++ [some { path := job.path, docs := job.docs }] }
    else r
  | _ => r

/-- A worker takes the next symbol of a file. -/
def takeSymbol (g : Generator) (r : Run σ) (w s : Nat) (job : FileJob) : Run σ :=
  match Pool.next r.cancelled (fun _ => r.admitsSymbol g job) job.pool.queue with
  | (none, queue) =>
    r.setJob w { job with pool := { job.pool with queue := queue }.set s .gone }
  | (some input, queue) =>
    { r with started := r.started + 1 }.setJob w
      { job with
        pool := { job.pool with queue := queue }.set s (.busy (.building input))
        started := job.started + 1 }

/-- A symbol failed: its worker looks for the next one. -/
def fail (r : Run σ) (w s : Nat) (job : FileJob) (input : Input) (cause : Cause) : Run σ :=
  let e : GenerationError := ⟨input, cause⟩
  { r with errors := r.errors ++ [some e], warnings := r.warnings ++ [e.warning] }.setJob w
    { job with pool := job.pool.set s .idle }

/-- The context of a symbol is built, and the service is asked next unless the run is cancelled. -/
def buildContext (g : Generator) (r : Run σ) (w s : Nat) (job : FileJob) (input : Input) : Run σ :=
  let built := g.context r.caches input
  let r := { r with caches := built.caches, warnings := r.warnings ++ built.warnings }
  match built.result with
  | .error f => r.fail w s job input (.source f)
  | .ok c =>
    let slot := if r.cancelled then .idle else .busy (.asking c)
    r.setJob w { job with pool := job.pool.set s slot }

/-- The service is asked about a symbol. -/
def askService (service : Service σ) (r : Run σ) (w s : Nat) (job : FileJob) (c : Context) :
    Run σ :=
  let (reaction, state) := service.ask c r.service
  let call : ServiceCall := ⟨c, r.cancelled⟩
  { r with
    service := state
    cancelled := r.cancelled || reaction.cancels
    calls := r.calls ++ [call] }.setJob w
    { job with pool := job.pool.set s (.busy (.waiting c.input reaction.answer)) }

/-- A worker for symbols goes on. -/
def stepSymbol (g : Generator) (service : Service σ) (r : Run σ) (w s : Nat) : Run σ :=
  match r.job? w with
  | none => r
  | some job =>
    match job.pool.slots[s]? with
    | some .idle => r.takeSymbol g w s job
    | some (.busy (.building input)) => r.buildContext g w s job input
    | some (.busy (.asking c)) => r.askService service w s job c
    | _ => r

/-- The answer to a worker's question arrives. -/
def stepAnswer (g : Generator) (r : Run σ) (w s : Nat) : Run σ :=
  match r.job? w with
  | none => r
  | some job =>
    match job.pool.slots[s]? with
    | some (.busy (.waiting input (.text text))) =>
      r.setJob w
        { job with
          pool := job.pool.set s .idle
          docs := job.docs ++ [⟨input, g.finish text⟩] }
    | some (.busy (.waiting input (.fault f))) => r.fail w s job input (.service f)
    | _ => r

/-- A worker stops waiting for an answer because the run is cancelled. -/
def stepAbandon (r : Run σ) (w s : Nat) : Run σ :=
  if !r.cancelled then r
  else match r.job? w with
    | none => r
    | some job =>
      match job.pool.slots[s]? with
      | some (.busy (.waiting _ _)) => r.setJob w { job with pool := job.pool.set s .idle }
      | _ => r

/-- The streams are closed once all workers are gone. -/
def stepClose (r : Run σ) : Run σ :=
  if r.closed || !r.pool.done then r
  else { r with files := r.files ++ [none], errors := r.errors ++ [none], closed := true }

/-- What happens in a move; one that is not possible changes nothing. -/
def step (g : Generator) (service : Service σ) (r : Run σ) : Move → Run σ
  | .file w => r.stepFile g w
  | .symbol w s => r.stepSymbol g service w s
  | .answer w s => r.stepAnswer g w s
  | .abandon w s => r.stepAbandon w s
  | .cancel => { r with cancelled := true }
  | .close => r.stepClose

/-- The moves of a schedule, one after another. -/
def run (g : Generator) (service : Service σ) (r : Run σ) (moves : List Move) : Run σ :=
  moves.foldl (step g service) r

/-- The turn of a worker for symbols. -/
def symbolTurn (w : Nat) (slots : List (Slot SymbolJob)) (s : Nat) : List Move :=
  match slots[s]? with
  | some (.busy (.waiting _ _)) => [.answer w s, .abandon w s]
  | _ => [.symbol w s]

/-- The turn of a worker for files and of those for the symbols of its file. -/
def fileTurn (r : Run σ) (w : Nat) : List Move :=
  match r.job? w with
  | some job =>
    (List.range job.pool.slots.length).flatMap (symbolTurn w job.pool.slots) ++ [.file w]
  | none => [.file w]

/-- A round in which every worker has its turn. -/
def round (r : Run σ) : List Move :=
  (List.range r.pool.slots.length).flatMap r.fileTurn ++ [.close]

/-- Rounds, no more than a number of them, until the streams are closed. -/
def driveFrom (g : Generator) (service : Service σ) : Nat → Run σ → Run σ
  | 0, r => r
  | rounds + 1, r => if r.closed then r else driveFrom g service rounds (r.run g service r.round)

/-- A number of rounds that suffices: a few for each symbol and file. -/
def enough (r : Run σ) : Nat :=
  r.pool.queue.foldl (fun n (_, inputs) => n + 6 * inputs.length + 6) 6

/-- The run in which the workers take turns until its end. -/
def drive (g : Generator) (service : Service σ) (r : Run σ) : Run σ :=
  r.driveFrom g service r.enough

/-- The files that came out so far. -/
def generated (r : Run σ) : List GeneratedFile := r.files.filterMap id

/-- The symbols that failed so far. -/
def failed (r : Run σ) : List GenerationError := r.errors.filterMap id

end Run

/-- The documentation of a single symbol: what waiting for the service gives, or why the context
    could not be built. -/
def Generator.generate {σ : Type} (g : Generator) (service : Service σ) (state : σ)
    (input : Input) : Except Failure (Context × RaceResult) × List String × σ :=
  let built := g.context [] input
  match built.result with
  | .error f => (.error f, built.warnings, state)
  | .ok c =>
    let (reaction, state) := service.ask c state
    let result := match race false reaction with
      | .text s => .text (g.finish s)
      | other => other
    (.ok (c, result), built.warnings, state)

end Docsmith
