import Docsmith.Proofs.Generate.Ledger

namespace Docsmith

open List

/-!
# The history of a run

The moves of a schedule leave a history: which files were opened, which symbols were begun, what
each of them came to, and which of them were dropped since the run was cancelled.  Invariants of a
run relate its state to this history, so that they speak of the order in which things happened.

* `Event`, `History`: what is noted of a run, and `Run.event?`, `Run.events`: the notes it makes.
* `Run.outcomes_events`: the outcomes that are noted are those of the moves.
* `Run.underWay`: the symbols that are begun and have come to nothing yet.
* `Run.Turn`: what a move can do, with the event that it notes, and `Run.step_turn`: every move does
  one of these.
* `Run.history_induction`: what every turn preserves holds after every schedule.
* `Run.begun_perm`: a symbol that was begun is settled, dropped or under way, and only one of them.
-/

/-! ### Events -/

/-- What is noted of a run: a file is opened, a symbol is begun, the outcome of a symbol is there,
    or its worker gives up and there is none. -/
inductive Event where
  | opened (path : String) (inputs : List Input)
  | begun (path : String) (input : Input)
  | settled (outcome : Outcome)
  | dropped (path : String) (input : Input)

namespace Event

/-- The file that was opened. -/
@[simp] def file? : Event → Option (String × List Input)
  | opened path inputs => some (path, inputs)
  | _ => none

/-- The symbol that was begun, with the path of its file. -/
@[simp] def begun? : Event → Option (String × Input)
  | begun path input => some (path, input)
  | _ => none

/-- The outcome that is there. -/
@[simp] def outcome? : Event → Option Outcome
  | settled o => some o
  | _ => none

/-- The symbol that was dropped, with the path of its file. -/
@[simp] def dropped? : Event → Option (String × Input)
  | dropped path input => some (path, input)
  | _ => none

end Event

/-- The events of a run, in order. -/
abbrev History := List Event

namespace History

/-- The files that were opened, in order. -/
def files (log : History) : List (String × List Input) := log.filterMap Event.file?

/-- The symbols that were begun, in order. -/
def begun (log : History) : List (String × Input) := log.filterMap Event.begun?

/-- The symbols of a file that were begun, in order. -/
def begunIn (log : History) (path : String) : List Input :=
  (log.begun.filter (·.1 == path)).map Prod.snd

/-- The outcomes that are there, in order. -/
def outcomes (log : History) : List Outcome := log.filterMap Event.outcome?

/-- The symbols that were dropped, in order. -/
def dropped (log : History) : List (String × Input) := log.filterMap Event.dropped?

@[simp] theorem files_nil : files [] = [] := rfl

@[simp] theorem files_cons (e : Event) (log : History) :
    files (e :: log) = e.file?.toList ++ log.files := by
  cases e <;> rfl

@[simp] theorem files_append (log log' : History) :
    files (log ++ log') = log.files ++ log'.files := List.filterMap_append

@[simp] theorem begun_nil : begun [] = [] := rfl

@[simp] theorem begun_cons (e : Event) (log : History) :
    begun (e :: log) = e.begun?.toList ++ log.begun := by
  cases e <;> rfl

@[simp] theorem begun_append (log log' : History) :
    begun (log ++ log') = log.begun ++ log'.begun := List.filterMap_append

@[simp] theorem outcomes_nil : outcomes [] = [] := rfl

@[simp] theorem outcomes_cons (e : Event) (log : History) :
    outcomes (e :: log) = e.outcome?.toList ++ log.outcomes := by
  cases e <;> rfl

@[simp] theorem outcomes_append (log log' : History) :
    outcomes (log ++ log') = log.outcomes ++ log'.outcomes := List.filterMap_append

@[simp] theorem dropped_nil : dropped [] = [] := rfl

@[simp] theorem dropped_cons (e : Event) (log : History) :
    dropped (e :: log) = e.dropped?.toList ++ log.dropped := by
  cases e <;> rfl

@[simp] theorem dropped_append (log log' : History) :
    dropped (log ++ log') = log.dropped ++ log'.dropped := List.filterMap_append

end History

/-! ### Pools -/

namespace Pool

variable {α β : Type}

/-- A worker that changes its state leaves what waits as it is. -/
@[simp] theorem queue_set (p : Pool α β) (w : Nat) (s : Slot β) : (p.set w s).queue = p.queue := rfl

/-- The jobs of a pool next to those of one of its workers stay as they are, whatever this worker
    does and whatever waits. -/
theorem jobs_others {p : Pool α β} {w : Nat} {old : Slot β} (h : p.slots[w]? = some old) :
    ∃ others, p.jobs ~ old.job?.toList ++ others ∧
      ∀ (left : List α) (s : Slot β),
        ({ p with queue := left }.set w s).jobs ~ s.job?.toList ++ others := by
  obtain ⟨before, after, hjobs, hset⟩ := jobs_set h
  have hmiddle : ∀ s : Slot β, before ++ s.job?.toList ++ after
      ~ s.job?.toList ++ (before ++ after) := by
    intro s
    rw [List.append_assoc]
    exact List.perm_append_comm_assoc _ _ _
  refine ⟨before ++ after, hjobs ▸ hmiddle old, ?_⟩
  intro left s
  show (p.slots.set w s).filterMap Slot.job? ~ _
  rw [hset s]
  exact hmiddle s

/-- The jobs after a worker changed its state: the one that it has then, and some of those
    before. -/
theorem mem_jobs_set {p : Pool α β} {w : Nat} {left : List α} {s : Slot β} {job : β}
    (h : job ∈ ({ p with queue := left }.set w s).jobs) : job ∈ s.job? ∨ job ∈ p.jobs := by
  obtain ⟨slot, hslot, hjob⟩ := List.mem_filterMap.mp h
  rcases List.mem_or_eq_of_mem_set hslot with hold | rfl
  · exact .inr (List.mem_filterMap.mpr ⟨slot, hold, hjob⟩)
  · exact .inl hjob

/-- A pool whose workers are all gone has no jobs. -/
theorem jobs_of_done {p : Pool α β} (h : p.done = true) : p.jobs = [] := by
  rw [jobs, List.filterMap_eq_nil_iff]
  intro s hs
  have hgone := List.all_eq_true.mp h s hs
  cases s with
  | gone => rfl
  | idle => cases hgone
  | busy job => cases hgone

end Pool

/-! ### What is under way -/

/-- The symbols of an open file that its workers are busy with. -/
def FileJob.underWay (job : FileJob) : List Input := job.pool.jobs.map SymbolJob.input

namespace Run

variable {σ : Type}

/-- The symbols that workers are busy with, with the paths of their files. -/
def underWay (r : Run σ) : List (String × Input) :=
  r.pool.jobs.flatMap fun job => job.underWay.map (job.path, ·)

/-- What is noted of a move. -/
def event? (g : Generator) (r : Run σ) : Move → Option Event
  | .file w =>
    match r.pool.slots[w]? with
    | some .idle =>
      (Pool.next r.cancelled (fun _ => r.admitsFile g) r.pool.queue).1.map fun (path, inputs) =>
        .opened path inputs
    | _ => none
  | .symbol w s =>
    match r.job? w with
    | none => none
    | some job =>
      match job.pool.slots[s]? with
      | some .idle =>
        (Pool.next r.cancelled (fun _ => r.admitsSymbol g job) job.pool.queue).1.map
          (.begun job.path)
      | some (.busy (.building input)) =>
        match (g.context r.caches input).result with
        | .error f => some (.settled ⟨job.path, input, .error (.source f)⟩)
        | .ok _ => if r.cancelled then some (.dropped job.path input) else none
      | _ => none
  | .answer w s =>
    match r.job? w with
    | none => none
    | some job =>
      match job.pool.slots[s]? with
      | some (.busy (.waiting input (.text text))) =>
        some (.settled ⟨job.path, input, .ok (g.finish text)⟩)
      | some (.busy (.waiting input (.fault f))) =>
        some (.settled ⟨job.path, input, .error (.service f)⟩)
      | _ => none
  | .abandon w s =>
    if !r.cancelled then none
    else match r.job? w with
      | none => none
      | some job =>
        match job.pool.slots[s]? with
        | some (.busy (.waiting input _)) => some (.dropped job.path input)
        | _ => none
  | _ => none

/-- What is noted of the moves of a schedule, in order. -/
def events (g : Generator) (service : Service σ) : Run σ → List Move → History
  | _, [] => []
  | r, m :: moves => (r.event? g m).toList ++ events g service (r.step g service m) moves

/-- The outcome that is noted of a move is the one that it settles. -/
theorem event?_bind_outcome? (g : Generator) (r : Run σ) (m : Move) :
    (r.event? g m).bind Event.outcome? = r.outcome? g m := by
  -- event and outcome read the same state, so the two functions split on the same tests
  cases m with
  | file w =>
    simp only [event?, outcome?]
    split
    case h_1 => simp [Option.bind_map, Function.comp_def]
    case h_2 => rfl
  | symbol w s =>
    simp only [event?, outcome?]
    -- a job that is not there records nothing in either
    cases r.job? w with
    | none => rfl
    | some job =>
      dsimp only
      split
      case h_1 hidle => simp [hidle, Option.bind_map, Function.comp_def]
      case h_2 input hbuilding =>
        simp only [hbuilding]
        cases (g.context r.caches input).result with
        | error f => rfl
        | ok c => by_cases hc : r.cancelled = true <;> simp [hc]
      -- the last pattern of the outcome covers what the event tells apart, hence the second split
      case h_3 hnot =>
        split
        case h_1 input hbuilding => exact absurd hbuilding (hnot input)
        case h_2 => rfl
  | answer w s =>
    simp only [event?, outcome?]
    cases r.job? w with
    | none => rfl
    | some job =>
      dsimp only
      split <;> simp_all
  | abandon w s =>
    simp only [event?, outcome?]
    split
    case isTrue => rfl
    case isFalse =>
      cases r.job? w with
      | none => rfl
      | some job =>
        dsimp only
        split <;> rfl
  | cancel => rfl
  | close => rfl

/-- The outcomes that are noted are those of the moves. -/
theorem outcomes_events (g : Generator) (service : Service σ) (r : Run σ) (moves : List Move) :
    (r.events g service moves).outcomes = r.outcomes g service moves := by
  induction moves generalizing r with
  | nil => rfl
  | cons m moves ih =>
    have hmove : History.outcomes (r.event? g m).toList = (r.outcome? g m).toList := by
      rw [← event?_bind_outcome?]
      cases r.event? g m with
      | none => rfl
      | some e => simp
    rw [events, outcomes, History.outcomes_append, hmove, ih]

/-! ### Turns -/

/-- The counts and the streams are as before, apart from errors, and a cancellation stands. -/
structure Keeps (r r' : Run σ) : Prop where
  started : r'.started = r.started
  dispatched : r'.dispatched = r.dispatched
  files : r'.files = r.files
  closed : r'.closed = r.closed
  cancelled : r.cancelled = true → r'.cancelled = true

/-- What a move can do to the workers, the counts and the streams of a run, with the event that it
    notes.  What the service and the caches do along with it does not matter here. -/
inductive Turn (g : Generator) (r : Run σ) : Option Event → Run σ → Prop where
  /-- the move is not possible -/
  | stay : Turn g r none r
  /-- a worker opens the next file -/
  | opens (w : Nat) (path : String) (inputs : List Input) (rest : List (String × List Input))
      (idle : r.pool.slots[w]? = some .idle) (queue : r.pool.queue = (path, inputs) :: rest)
      (live : r.cancelled = false) (admitted : r.admitsFile g = true) :
      Turn g r (some (.opened path inputs))
        { r with
          pool := { r.pool with queue := rest }.set w (.busy (openFile g path inputs))
          dispatched := r.dispatched + 1 }
  /-- a worker for files leaves -/
  | leaves (w : Nat) (left : List (String × List Input)) (idle : r.pool.slots[w]? = some .idle)
      (why : Leaves r.cancelled (r.admitsFile g) r.pool.queue left) :
      Turn g r none { r with pool := { r.pool with queue := left }.set w .gone }
  /-- a file whose workers are gone is closed, and what came out of it is published -/
  | shuts (w : Nat) (job : FileJob) (busy : r.pool.slots[w]? = some (.busy job))
      (done : job.pool.done = true) :
      Turn g r none
        { r with
          pool := r.pool.set w .idle
          files := if job.docs.isEmpty then r.files
            else r.files ++ [some { path := job.path, docs := job.docs }] }
  /-- a worker begins the next symbol of a file -/
  | begins (w s : Nat) (job : FileJob) (input : Input) (rest : List Input)
      (busy : r.pool.slots[w]? = some (.busy job)) (idle : job.pool.slots[s]? = some .idle)
      (queue : job.pool.queue = input :: rest)
      (live : r.cancelled = false) (admitted : r.admitsSymbol g job = true) :
      Turn g r (some (.begun job.path input))
        ({ r with started := r.started + 1 }.setJob w
          { job with
            pool := { job.pool with queue := rest }.set s (.busy (.building input))
            started := job.started + 1 })
  /-- a worker for symbols leaves -/
  | retires (w s : Nat) (job : FileJob) (left : List Input)
      (busy : r.pool.slots[w]? = some (.busy job)) (idle : job.pool.slots[s]? = some .idle)
      (why : Leaves r.cancelled (r.admitsSymbol g job) job.pool.queue left) :
      Turn g r none
        (r.setJob w { job with pool := { job.pool with queue := left }.set s .gone })
  /-- a worker goes on with its symbol -/
  | advances (w s : Nat) (job : FileJob) (symbol next : SymbolJob) (r' : Run σ)
      (busy : r.pool.slots[w]? = some (.busy job))
      (slot : job.pool.slots[s]? = some (.busy symbol)) (same : next.input = symbol.input)
      (pool : r'.pool = r.pool.set w (.busy { job with pool := job.pool.set s (.busy next) }))
      (keeps : Keeps r r') (errors : r'.errors = r.errors) : Turn g r none r'
  /-- the outcome of a symbol is there -/
  | settles (w s : Nat) (job : FileJob) (symbol : SymbolJob) (o : Outcome) (r' : Run σ)
      (busy : r.pool.slots[w]? = some (.busy job))
      (slot : job.pool.slots[s]? = some (.busy symbol))
      (about : o.symbol = (job.path, symbol.input))
      (pool : r'.pool = r.pool.set w (.busy
        { job with pool := job.pool.set s .idle, docs := job.docs ++ o.doc?.toList }))
      (keeps : Keeps r r') (errors : r'.errors = r.errors ++ o.error?.toList.map some) :
      Turn g r (some (.settled o)) r'
  /-- a symbol is dropped, since the run is cancelled -/
  | drops (w s : Nat) (job : FileJob) (symbol : SymbolJob) (r' : Run σ)
      (busy : r.pool.slots[w]? = some (.busy job))
      (slot : job.pool.slots[s]? = some (.busy symbol)) (cancelled : r.cancelled = true)
      (pool : r'.pool = r.pool.set w (.busy { job with pool := job.pool.set s .idle }))
      (keeps : Keeps r r') (errors : r'.errors = r.errors) :
      Turn g r (some (.dropped job.path symbol.input)) r'
  /-- the run is cancelled -/
  | cancels : Turn g r none { r with cancelled := true }
  /-- the streams are closed once every worker is gone -/
  | closes (running : r.closed = false) (done : r.pool.done = true) :
      Turn g r none
        { r with files := r.files ++ [none], errors := r.errors ++ [none], closed := true }

/-- A worker for files opens a file, closes the one that it has, or leaves. -/
theorem stepFile_turn (g : Generator) (r : Run σ) (w : Nat) :
    Turn g r (r.event? g (.file w)) (r.stepFile g w) := by
  simp only [stepFile, event?]
  -- only an idle worker takes a file, and only a busy one can shut its own
  cases hslot : r.pool.slots[w]? with
  | none => exact .stay
  | some slot =>
    cases slot with
    | gone => exact .stay
    | idle =>
      dsimp only
      rcases Pool.next_cases r.cancelled (fun _ => r.admitsFile g) r.pool.queue with
        -- the queue hands out a file when the run admits one, or is left for a reason kept in `hwhy`
        ⟨⟨path, inputs⟩, rest, hq, hlive, hadm, hnext⟩ | ⟨left, hnext, hwhy⟩
      · rw [hnext]
        exact .opens w path inputs rest hslot hq hlive hadm
      · rw [hnext]
        exact .leaves w left hslot hwhy
    | busy job =>
      dsimp only
      split
      case isTrue hdone => exact .shuts w job hslot hdone
      case isFalse => exact .stay

/-- Building the context of a symbol settles it if that fails, drops it in a cancelled run, and
    otherwise brings it on its way. -/
theorem buildContext_turn {g : Generator} {r : Run σ} {w s : Nat} {job : FileJob} {input : Input}
    (hbusy : r.pool.slots[w]? = some (.busy job))
    (hslot : job.pool.slots[s]? = some (.busy (.building input))) :
    Turn g r
      (match (g.context r.caches input).result with
        | .error f => some (.settled ⟨job.path, input, .error (.source f)⟩)
        | .ok _ => if r.cancelled then some (.dropped job.path input) else none)
      (r.buildContext g w s job input) := by
  simp only [buildContext]
  -- the context fails at once, or the symbol goes on to the service unless the run was cancelled meanwhile
  cases hresult : (g.context r.caches input).result with
  | error f =>
    refine .settles w s job (.building input) ⟨job.path, input, .error (.source f)⟩ _ hbusy hslot
      rfl ?_ ⟨rfl, rfl, rfl, rfl, id⟩ rfl
    simp [fail, setJob, Outcome.doc?]
  | ok c =>
    dsimp only
    by_cases hc : r.cancelled = true
    · rw [if_pos hc, if_pos hc]
      exact .drops w s job (.building input) _ hbusy hslot hc rfl ⟨rfl, rfl, rfl, rfl, id⟩ rfl
    · have hinput : c.input = input := Generator.context_input hresult
      rw [if_neg hc, if_neg hc]
      exact .advances w s job (.building input) (.asking c) _ hbusy hslot hinput rfl
        ⟨rfl, rfl, rfl, rfl, id⟩ rfl

/-- A worker for symbols begins a symbol or leaves, builds a context, or asks the service. -/
theorem stepSymbol_turn (g : Generator) (service : Service σ) (r : Run σ) (w s : Nat) :
    Turn g r (r.event? g (.symbol w s)) (r.stepSymbol g service w s) := by
  simp only [stepSymbol, event?]
  cases hjob : r.job? w with
  | none => exact .stay
  | some job =>
    have hbusy := job?_eq_some.mp hjob
    dsimp only
    -- a symbol's step starts the next one, builds its context or asks the service, by the slot it stands in
    cases hslot : job.pool.slots[s]? with
    | none => exact .stay
    | some slot =>
      cases slot with
      | gone => exact .stay
      | idle =>
        simp only [takeSymbol]
        rcases Pool.next_cases r.cancelled (fun _ => r.admitsSymbol g job) job.pool.queue with
          ⟨input, rest, hq, hlive, hadm, hnext⟩ | ⟨left, hnext, hwhy⟩
        · rw [hnext]
          exact .begins w s job input rest hbusy hslot hq hlive hadm
        · rw [hnext]
          exact .retires w s job left hbusy hslot hwhy
      | busy symbol =>
        cases symbol with
        | building input => exact buildContext_turn hbusy hslot
        | asking c =>
          have hkeeps : Keeps r (r.askService service w s job c) :=
            ⟨rfl, rfl, rfl, rfl, fun hc => by simp [askService, setJob, hc]⟩
          exact .advances w s job (.asking c)
            (.waiting c.input (service.ask c r.service).1.answer) _ hbusy hslot rfl rfl hkeeps rfl
        | waiting input answer => exact .stay

/-- An answer that arrives settles a symbol. -/
theorem stepAnswer_turn (g : Generator) (r : Run σ) (w s : Nat) :
    Turn g r (r.event? g (.answer w s)) (r.stepAnswer g w s) := by
  simp only [stepAnswer, event?]
  cases hjob : r.job? w with
  | none => exact .stay
  | some job =>
    have hbusy := job?_eq_some.mp hjob
    dsimp only
    cases hslot : job.pool.slots[s]? with
    | none => exact .stay
    | some slot =>
      cases slot with
      | idle => exact .stay
      | gone => exact .stay
      | busy symbol =>
        cases symbol with
        | building input => exact .stay
        | asking c => exact .stay
        | waiting input answer =>
          -- only a slot that waits can take an answer, and an answer that never comes leaves it waiting
          cases answer with
          | text text =>
            exact .settles w s job _ ⟨job.path, input, .ok (g.finish text)⟩ _ hbusy hslot rfl rfl
              ⟨rfl, rfl, rfl, rfl, id⟩ (by simp [setJob, Outcome.error?])
          | fault f =>
            refine .settles w s job _ ⟨job.path, input, .error (.service f)⟩ _ hbusy hslot rfl ?_
              ⟨rfl, rfl, rfl, rfl, id⟩ rfl
            simp [fail, setJob, Outcome.doc?]
          | never => exact .stay

/-- A worker that gives up waiting drops its symbol. -/
theorem stepAbandon_turn (g : Generator) (r : Run σ) (w s : Nat) :
    Turn g r (r.event? g (.abandon w s)) (r.stepAbandon w s) := by
  simp only [stepAbandon, event?]
  split
  case isTrue => exact .stay
  -- abandoning needs a cancelled run, and drops only the call that waits
  case isFalse hcancelled =>
    cases hjob : r.job? w with
    | none => exact .stay
    | some job =>
      have hc : r.cancelled = true := by simpa using hcancelled
      dsimp only
      cases hslot : job.pool.slots[s]? with
      | none => exact .stay
      | some slot =>
        cases slot with
        | idle => exact .stay
        | gone => exact .stay
        | busy symbol =>
          cases symbol with
          | building input => exact .stay
          | asking c => exact .stay
          | waiting input answer =>
            exact .drops w s job (.waiting input answer) _ (job?_eq_some.mp hjob) hslot hc rfl
              ⟨rfl, rfl, rfl, rfl, id⟩ rfl

/-- **Every move is a turn**, and notes the event that the turn has. -/
theorem step_turn (g : Generator) (service : Service σ) (r : Run σ) (m : Move) :
    Turn g r (r.event? g m) (r.step g service m) := by
  cases m with
  | file w => exact stepFile_turn g r w
  | symbol w s => exact stepSymbol_turn g service r w s
  | answer w s => exact stepAnswer_turn g r w s
  | abandon w s => exact stepAbandon_turn g r w s
  | cancel => exact .cancels
  | close =>
    show Turn g r none r.stepClose
    unfold stepClose
    split
    case isTrue => exact .stay
    case isFalse h =>
      rw [Bool.not_eq_true, Bool.or_eq_false_iff, Bool.not_eq_false'] at h
      exact .closes h.1 h.2

/-- **What every turn preserves holds after every schedule**: a relation between history and state
    that is kept by each turn is kept by a run. -/
theorem history_induction {g : Generator} {service : Service σ} (P : History → Run σ → Prop)
    (hturn : ∀ {log r e r'}, P log r → Turn g r e r' → P (log ++ e.toList) r') {r : Run σ}
    (h : P [] r) (moves : List Move) : P (r.events g service moves) (r.run g service moves) := by
  -- the induction is on the schedule, from any history that led to its first state
  have hfrom : ∀ (log : History) (r : Run σ), P log r →
      P (log ++ r.events g service moves) (r.run g service moves) := by
    induction moves with
    | nil =>
      intro log r h
      simpa [events, run] using h
    | cons m moves ih =>
      intro log r h
      have hnext := ih _ _ (hturn h (step_turn g service r m))
      rw [List.append_assoc] at hnext
      exact hnext
  exact hfrom [] r h

/-- Streams that are closed only when all workers are gone are open as long as one is there. -/
theorem open_of_slot {r : Run σ} (hended : r.closed = true → r.pool.done = true) {w : Nat}
    {slot : Slot FileJob} (hslot : r.pool.slots[w]? = some slot) (hstays : slot ≠ .gone) :
    r.closed = false := by
  by_contra hclosed
  have hdone : r.pool.done = true := hended (by simpa using hclosed)
  simp [Pool.not_done hslot hstays] at hdone

/-! ### What was begun -/

/-- What a worker for symbols does changes what is under way by its own symbol alone. -/
theorem underWay_setJob {r r' : Run σ} {w s : Nat} {job job' : FileJob} {old new : Slot SymbolJob}
    {left : List Input} {ended begun : List (String × Input)}
    (hbusy : r.pool.slots[w]? = some (.busy job)) (hslot : job.pool.slots[s]? = some old)
    (hpool : r'.pool = r.pool.set w (.busy job')) (hpath : job'.path = job.path)
    (hnew : job'.pool = { job.pool with queue := left }.set s new)
    (hended : ended = old.job?.toList.map fun x => (job.path, x.input))
    (hbegun : begun = new.job?.toList.map fun x => (job.path, x.input)) :
    ended ++ r'.underWay ~ r.underWay ++ begun := by
  obtain ⟨files, hfiles, hfiles'⟩ := Pool.jobs_others hbusy
  obtain ⟨symbols, hsymbols, hsymbols'⟩ := Pool.jobs_others hslot
  have hopen : r'.pool.jobs ~ job' :: files := by
    rw [hpool]
    exact hfiles' r.pool.queue (.busy job')
  -- both sides are the two symbols of this worker, those of the others, and those of other files
  have hbefore : r.underWay ~ job.underWay.map (job.path, ·)
      ++ files.flatMap (fun j => j.underWay.map (j.path, ·)) := hfiles.flatMap_right _
  have hafter : r'.underWay ~ job'.underWay.map (job.path, ·)
      ++ files.flatMap (fun j => j.underWay.map (j.path, ·)) := by
    rw [← hpath]
    exact hopen.flatMap_right _
  have hold : job.underWay ~ (old.job?.toList ++ symbols).map SymbolJob.input := hsymbols.map _
  have hjob : job'.underWay ~ (new.job?.toList ++ symbols).map SymbolJob.input := by
    rw [FileJob.underWay, hnew]
    exact (hsymbols' left new).map _
  have hown := hold.map (job.path, ·)
  have hown' := hjob.map (job.path, ·)
  rw [List.perm_iff_count]
  intro a
  have h1 := hbefore.count_eq a
  have h2 := hafter.count_eq a
  have h3 := hown.count_eq a
  have h4 := hown'.count_eq a
  simp only [List.map_append, List.map_map, List.count_append, Function.comp_def] at h1 h2 h3 h4
  simp only [hended, hbegun, List.count_append]
  omega

/-- What a worker for files does changes nothing that is under way, if its file has nothing under
    way before and after. -/
theorem underWay_setFile {r r' : Run σ} {w : Nat} {old new : Slot FileJob}
    {left : List (String × List Input)} (hslot : r.pool.slots[w]? = some old)
    (hpool : r'.pool = { r.pool with queue := left }.set w new)
    (hold : ∀ job ∈ old.job?, job.underWay = []) (hnew : ∀ job ∈ new.job?, job.underWay = []) :
    r'.underWay ~ r.underWay := by
  obtain ⟨files, hfiles, hfiles'⟩ := Pool.jobs_others hslot
  -- neither the old nor the new slot has symbols under way, so both lists are those of the other files
  have hnone : ∀ slot : Slot FileJob, (∀ job ∈ slot.job?, job.underWay = []) →
      (slot.job?.toList ++ files).flatMap (fun j => j.underWay.map (j.path, ·))
        = files.flatMap (fun j => j.underWay.map (j.path, ·)) := by
    intro slot hslot
    cases hjob : slot.job? with
    | none => rfl
    | some job => simp [hslot job hjob]
  have hbefore := hfiles.flatMap_right (fun j => j.underWay.map (j.path, ·))
  have hafter := (hfiles' left new).flatMap_right (fun j => j.underWay.map (j.path, ·))
  rw [hnone old hold] at hbefore
  rw [hnone new hnew, ← hpool] at hafter
  exact hafter.trans hbefore.symm

/-- A turn balances: what is under way before it or is begun in it, is settled or dropped in it or
    under way after it. -/
theorem Turn.balance {g : Generator} {r r' : Run σ} {e : Option Event} (ht : Turn g r e r') :
    (History.outcomes e.toList).map Outcome.symbol ++ History.dropped e.toList ++ r'.underWay
      ~ r.underWay ++ History.begun e.toList := by
  cases ht with
  | stay => simp
  | opens w path inputs rest idle =>
    -- a file that is opened has begun nothing
    have hempty : (openFile g path inputs).underWay = [] := by
      simp [FileJob.underWay, openFile, Pool.jobs_start]
    simpa using underWay_setFile idle rfl (by simp [Slot.job?]) (by simp [Slot.job?, hempty])
  | leaves w left idle =>
    simpa using underWay_setFile idle rfl (by simp [Slot.job?]) (by simp [Slot.job?])
  | shuts w job busy done =>
    have hempty : job.underWay = [] := by simp [FileJob.underWay, Pool.jobs_of_done done]
    simpa using underWay_setFile busy rfl (by simp [Slot.job?, hempty]) (by simp [Slot.job?])
  | begins w s job input rest busy idle =>
    exact underWay_setJob busy idle rfl rfl rfl rfl rfl
  | retires w s job left busy idle => exact underWay_setJob busy idle rfl rfl rfl rfl rfl
  | advances w s job symbol next r' busy slot same pool =>
    -- the symbol counts on both sides: it is under way before and after
    have hbalance := underWay_setJob busy slot pool rfl rfl rfl rfl
    simp only [Slot.job?, Option.toList_some, List.map_cons, List.map_nil, same] at hbalance
    simpa using hbalance.trans List.perm_append_comm
  | settles w s job symbol o r' busy slot about pool =>
    exact underWay_setJob busy slot pool rfl rfl (by simp [Slot.job?, about]) rfl
  | drops w s job symbol r' busy slot cancelled pool =>
    exact underWay_setJob busy slot pool rfl rfl rfl rfl
  | cancels => exact (List.append_nil r.underWay).symm ▸ .refl _
  | closes => exact (List.append_nil r.underWay).symm ▸ .refl _

/-- **What is begun is accounted for.**  After every schedule the symbols that were begun are those
    that are settled, those that were dropped, and those that are under way. -/
theorem begun_perm (g : Generator) (service : Service σ) (files : List (String × List Input))
    (state : σ) (moves : List Move) :
    let final := (start g files state).run g service moves
    let log := (start g files state).events g service moves
    log.begun ~ log.outcomes.map Outcome.symbol ++ log.dropped ++ final.underWay := by
  have hstart : (start g files state).underWay = [] := by
    simp [underWay, start, Pool.jobs_start]
  refine history_induction (fun log r =>
    log.begun ~ log.outcomes.map Outcome.symbol ++ log.dropped ++ r.underWay) ?_
    (by simp [hstart]) moves
  intro log r e r' h ht
  -- what is under way between two turns cancels out
  have hstep := ht.balance
  rw [List.perm_iff_count] at *
  intro a
  have hbefore := h a
  have hturn := hstep a
  simp only [History.begun_append, History.outcomes_append, History.dropped_append,
    List.map_append, List.count_append] at hbefore hturn ⊢
  omega

end Run

end Docsmith
