import Docsmith.Generate.Run

namespace Docsmith

/-!
# What a move of a run can do

Every move of a run is one of a dozen small changes.  The invariants of runs are read off this list
instead of the step function, so that each of them is one short case split.

* `Pool.jobs_set`, `Pool.next_cases`: a worker changes its state, and looks for an item.
* `Outcome`, `Run.outcome?`, `Run.outcomes`: what generating a symbol came to, move by move.
* `Run.Transition`: the changes, each with the outcome that it settles.
* `Run.step_transition`: every move is one of them.
* `Run.cancelled_of_step`, `Run.cancelled_of_run`: a cancelled run stays cancelled.
-/

/-! ### Pools -/

namespace Pool

variable {α β : Type}

/-- The jobs of a pool around one of its workers: they change only by that worker's own job. -/
theorem jobs_set {p : Pool α β} {w : Nat} {old : Slot β} (h : p.slots[w]? = some old) :
    ∃ before after, p.jobs = before ++ old.job?.toList ++ after ∧
      ∀ s, (p.slots.set w s).filterMap Slot.job? = before ++ s.job?.toList ++ after := by
  obtain ⟨hw, hold⟩ := List.getElem?_eq_some_iff.mp h
  refine ⟨(p.slots.take w).filterMap Slot.job?, (p.slots.drop (w + 1)).filterMap Slot.job?, ?_, ?_⟩
  · have hsplit : p.slots = p.slots.take w ++ old :: p.slots.drop (w + 1) := by
      rw [← hold, ← List.drop_eq_getElem_cons hw, List.take_append_drop]
    calc p.jobs = (p.slots.take w ++ old :: p.slots.drop (w + 1)).filterMap Slot.job? := by
          rw [← hsplit]; rfl
      _ = _ := by cases hj : old.job? <;> simp [hj]
  · intro s
    rw [List.set_eq_take_append_cons_drop, if_pos hw]
    cases hj : s.job? <;> simp [hj]

/-- A worker that looks for an item takes the first one if the run goes on and admits it.  Else it
    leaves, and an item that was refused is lost. -/
theorem next_cases (cancelled : Bool) (admits : α → Bool) (queue : List α) :
    (∃ x rest, queue = x :: rest ∧ cancelled = false ∧ admits x = true ∧
      next cancelled admits queue = (some x, rest)) ∨
    (∃ left, next cancelled admits queue = (none, left) ∧
      (left = queue ∧ (queue = [] ∨ cancelled = true) ∨
        ∃ x, queue = x :: left ∧ admits x = false)) := by
  cases queue with
  | nil => exact .inr ⟨[], rfl, .inl ⟨rfl, .inl rfl⟩⟩
  | cons x rest =>
    cases cancelled with
    | true => exact .inr ⟨x :: rest, rfl, .inl ⟨rfl, .inr rfl⟩⟩
    | false =>
      cases ha : admits x with
      | true => exact .inl ⟨x, rest, rfl, rfl, ha, by simp [next, ha]⟩
      | false => exact .inr ⟨rest, by simp [next, ha], .inr ⟨x, rfl, ha⟩⟩

end Pool

/-! ### Outcomes -/

/-- What generating the documentation of a symbol of a file came to. -/
structure Outcome where
  path : String
  input : Input
  result : Except Cause String

/-- The symbol of an outcome, with the file that lists it. -/
def Outcome.symbol (o : Outcome) : String × Input := (o.path, o.input)

/-- The documentation of a symbol whose generation returned. -/
def Outcome.doc? (o : Outcome) : Option Documentation :=
  match o.result with
  | .ok text => some ⟨o.input, text⟩
  | .error _ => none

/-- The error of a symbol whose generation failed. -/
def Outcome.error? (o : Outcome) : Option GenerationError :=
  match o.result with
  | .ok _ => none
  | .error cause => some ⟨o.input, cause⟩

namespace Run

variable {σ : Type}

/-- What the generation of a symbol comes to in a move, if it ends there: it fails with its context,
    returns the answer of the service, or fails with it. -/
def outcome? (g : Generator) (r : Run σ) : Move → Option Outcome
  | .symbol w s =>
    match r.job? w with
    | none => none
    | some job =>
      match job.pool.slots[s]? with
      | some (.busy (.building input)) =>
        match (g.context r.caches input).result with
        | .error f => some ⟨job.path, input, .error (.source f)⟩
        | .ok _ => none
      | _ => none
  | .answer w s =>
    match r.job? w with
    | none => none
    | some job =>
      match job.pool.slots[s]? with
      | some (.busy (.waiting input (.text text))) => some ⟨job.path, input, .ok (g.finish text)⟩
      | some (.busy (.waiting input (.fault f))) => some ⟨job.path, input, .error (.service f)⟩
      | _ => none
  | _ => none

/-- The outcomes of the moves of a schedule, in order. -/
def outcomes (g : Generator) (service : Service σ) : Run σ → List Move → List Outcome
  | _, [] => []
  | r, m :: moves => (r.outcome? g m).toList ++ outcomes g service (r.step g service m) moves

/-! ### The changes -/

/-- A worker has a file open when it is busy with it. -/
theorem job?_eq_some {r : Run σ} {w : Nat} {job : FileJob} :
    r.job? w = some job ↔ r.pool.slots[w]? = some (.busy job) := by
  simp only [job?, Option.bind_eq_some_iff]
  constructor
  · rintro ⟨slot, hslot, hjob⟩
    cases slot with
    | busy j => rw [hslot]; cases hjob; rfl
    | idle => cases hjob
    | gone => cases hjob
  · intro h
    exact ⟨_, h, rfl⟩

/-- Why a worker leaves with some items left over: nothing waits, the run is cancelled, or the item
    that it took was refused. -/
def Leaves {α : Type} (cancelled admits : Bool) (queue left : List α) : Prop :=
  left = queue ∧ (queue = [] ∨ cancelled = true) ∨ ∃ x, queue = x :: left ∧ admits = false

/-- What a move can do to a run, with the outcome that it settles. -/
inductive Transition (g : Generator) (service : Service σ) (r : Run σ) :
    Option Outcome → Run σ → Prop where
  /-- the move is not possible -/
  | stay : Transition g service r none r
  /-- a worker opens the next file -/
  | openNext (w : Nat) (path : String) (inputs : List Input) (rest : List (String × List Input))
      (idle : r.pool.slots[w]? = some .idle) (queue : r.pool.queue = (path, inputs) :: rest)
      (live : r.cancelled = false) (admitted : r.admitsFile g = true) :
      Transition g service r none
        { r with
          pool := { r.pool with queue := rest }.set w (.busy (openFile g path inputs))
          dispatched := r.dispatched + 1 }
  /-- a worker for files leaves -/
  | leaveFiles (w : Nat) (left : List (String × List Input))
      (idle : r.pool.slots[w]? = some .idle)
      (why : Leaves r.cancelled (r.admitsFile g) r.pool.queue left) :
      Transition g service r none { r with pool := { r.pool with queue := left }.set w .gone }
  /-- a file whose workers are gone is closed, and what came out of it is published -/
  | closeFile (w : Nat) (job : FileJob) (busy : r.pool.slots[w]? = some (.busy job))
      (done : job.pool.done = true) :
      Transition g service r none
        { r with
          pool := r.pool.set w .idle
          files := if job.docs.isEmpty then r.files
            else r.files ++ [some { path := job.path, docs := job.docs }] }
  /-- a worker starts the next symbol of a file -/
  | startNext (w s : Nat) (job : FileJob) (input : Input) (rest : List Input)
      (busy : r.pool.slots[w]? = some (.busy job)) (idle : job.pool.slots[s]? = some .idle)
      (queue : job.pool.queue = input :: rest)
      (live : r.cancelled = false) (admitted : r.admitsSymbol g job = true) :
      Transition g service r none
        ({ r with started := r.started + 1 }.setJob w
          { job with
            pool := { job.pool with queue := rest }.set s (.busy (.building input))
            started := job.started + 1 })
  /-- a worker for symbols leaves -/
  | leaveSymbols (w s : Nat) (job : FileJob) (left : List Input)
      (busy : r.pool.slots[w]? = some (.busy job)) (idle : job.pool.slots[s]? = some .idle)
      (why : Leaves r.cancelled (r.admitsSymbol g job) job.pool.queue left) :
      Transition g service r none
        (r.setJob w { job with pool := { job.pool with queue := left }.set s .gone })
  /-- the context of a symbol cannot be built -/
  | contextFails (w s : Nat) (job : FileJob) (input : Input) (f : Failure)
      (busy : r.pool.slots[w]? = some (.busy job))
      (building : job.pool.slots[s]? = some (.busy (.building input)))
      (result : (g.context r.caches input).result = .error f) :
      Transition g service r (some ⟨job.path, input, .error (.source f)⟩)
        ({ r with
          caches := (g.context r.caches input).caches
          warnings := r.warnings ++ (g.context r.caches input).warnings }.fail
            w s job input (.source f))
  /-- the context of a symbol is there, and its worker goes on unless the run is cancelled -/
  | contextBuilt (w s : Nat) (job : FileJob) (input : Input) (c : Context)
      (busy : r.pool.slots[w]? = some (.busy job))
      (building : job.pool.slots[s]? = some (.busy (.building input)))
      (result : (g.context r.caches input).result = .ok c) :
      Transition g service r none
        ({ r with
          caches := (g.context r.caches input).caches
          warnings := r.warnings ++ (g.context r.caches input).warnings }.setJob w
            { job with
              pool := job.pool.set s (if r.cancelled then .idle else .busy (.asking c)) })
  /-- the service is asked -/
  | ask (w s : Nat) (job : FileJob) (c : Context)
      (busy : r.pool.slots[w]? = some (.busy job))
      (asking : job.pool.slots[s]? = some (.busy (.asking c))) :
      Transition g service r none (r.askService service w s job c)
  /-- the service answers -/
  | returns (w s : Nat) (job : FileJob) (input : Input) (text : String)
      (busy : r.pool.slots[w]? = some (.busy job))
      (waiting : job.pool.slots[s]? = some (.busy (.waiting input (.text text)))) :
      Transition g service r (some ⟨job.path, input, .ok (g.finish text)⟩)
        (r.setJob w
          { job with pool := job.pool.set s .idle, docs := job.docs ++ [⟨input, g.finish text⟩] })
  /-- the service fails -/
  | faults (w s : Nat) (job : FileJob) (input : Input) (f : ServiceFault)
      (busy : r.pool.slots[w]? = some (.busy job))
      (waiting : job.pool.slots[s]? = some (.busy (.waiting input (.fault f)))) :
      Transition g service r (some ⟨job.path, input, .error (.service f)⟩)
        (r.fail w s job input (.service f))
  /-- a worker gives up waiting, since the run is cancelled -/
  | abandon (w s : Nat) (job : FileJob) (input : Input) (answer : Answer)
      (busy : r.pool.slots[w]? = some (.busy job))
      (waiting : job.pool.slots[s]? = some (.busy (.waiting input answer)))
      (cancelled : r.cancelled = true) :
      Transition g service r none (r.setJob w { job with pool := job.pool.set s .idle })
  /-- the run is cancelled -/
  | cancel : Transition g service r none { r with cancelled := true }
  /-- the streams are closed once every worker is gone -/
  | close (running : r.closed = false) (done : r.pool.done = true) :
      Transition g service r none
        { r with files := r.files ++ [none], errors := r.errors ++ [none], closed := true }

/-- A worker for files opens the next file or leaves, or closes the one that it has open. -/
theorem stepFile_transition (g : Generator) (service : Service σ) (r : Run σ) (w : Nat) :
    Transition g service r none (r.stepFile g w) := by
  unfold stepFile
  split
  case h_1 idle =>
    rcases Pool.next_cases r.cancelled (fun _ => r.admitsFile g) r.pool.queue with
      ⟨⟨path, inputs⟩, rest, hq, hlive, hadm, hnext⟩ | ⟨left, hnext, hwhy⟩
    · rw [hnext]
      exact .openNext w path inputs rest idle hq hlive hadm
    · rw [hnext]
      exact .leaveFiles w left idle hwhy
  case h_2 job busy =>
    split
    case isTrue hdone => exact .closeFile w job busy hdone
    case isFalse => exact .stay
  case h_3 => exact .stay

/-- A worker for symbols starts the next symbol or leaves, builds a context, or asks the service. -/
theorem stepSymbol_transition (g : Generator) (service : Service σ) (r : Run σ) (w s : Nat) :
    Transition g service r (r.outcome? g (.symbol w s)) (r.stepSymbol g service w s) := by
  simp only [stepSymbol, outcome?]
  cases hjob : r.job? w with
  | none => exact .stay
  | some job =>
    have busy := job?_eq_some.mp hjob
    dsimp only
    -- what a symbol's step does is told by the slot: none or gone it stays, idle it takes, busy it goes on
    cases hslot : job.pool.slots[s]? with
    | none => exact .stay
    | some slot =>
      cases slot with
      | gone => exact .stay
      | idle =>
        simp only [takeSymbol]
        rcases Pool.next_cases r.cancelled (fun _ => r.admitsSymbol g job) job.pool.queue with
          ⟨input, rest, hq, hlive, hadm, hnext⟩ | ⟨left, hnext, hwhy⟩
        · rw [hnext]
          exact .startNext w s job input rest busy hslot hq hlive hadm
        · rw [hnext]
          exact .leaveSymbols w s job left busy hslot hwhy
      | busy symbol =>
        cases symbol with
        | building input =>
          simp only [buildContext]
          -- the transition of a failed context settles the symbol, that of a built one hands it to the service
          cases hresult : (g.context r.caches input).result with
          | error f => exact .contextFails w s job input f busy hslot hresult
          | ok c => exact .contextBuilt w s job input c busy hslot hresult
        | asking c => exact .ask w s job c busy hslot
        | waiting input answer => exact .stay

/-- An answer that arrives ends the generation of a symbol. -/
theorem stepAnswer_transition (g : Generator) (service : Service σ) (r : Run σ) (w s : Nat) :
    Transition g service r (r.outcome? g (.answer w s)) (r.stepAnswer g w s) := by
  simp only [stepAnswer, outcome?]
  cases hjob : r.job? w with
  | none => exact .stay
  | some job =>
    have busy := job?_eq_some.mp hjob
    dsimp only
    cases hslot : job.pool.slots[s]? with
    | none => exact .stay
    | some slot =>
      cases slot with
      | idle => exact .stay
      | gone => exact .stay
      -- an answer only reaches a slot that waits for it
      | busy symbol =>
        cases symbol with
        | building input => exact .stay
        | asking c => exact .stay
        | waiting input answer =>
          cases answer with
          | text text => exact .returns w s job input text busy hslot
          | fault f => exact .faults w s job input f busy hslot
          | never => exact .stay

/-- A worker gives up waiting only in a cancelled run. -/
theorem stepAbandon_transition (g : Generator) (service : Service σ) (r : Run σ) (w s : Nat) :
    Transition g service r none (r.stepAbandon w s) := by
  unfold stepAbandon
  split
  case isTrue => exact .stay
  case isFalse hcancelled =>
    cases hjob : r.job? w with
    | none => exact .stay
    | some job =>
      dsimp only
      split
      case h_1 input answer waiting =>
        exact .abandon w s job input answer (job?_eq_some.mp hjob) waiting (by simpa using hcancelled)
      case h_2 => exact .stay

/-- The streams are closed once, and only when every worker is gone. -/
theorem stepClose_transition (g : Generator) (service : Service σ) (r : Run σ) :
    Transition g service r none r.stepClose := by
  unfold stepClose
  split
  case isTrue => exact .stay
  case isFalse h =>
    rw [Bool.not_eq_true, Bool.or_eq_false_iff, Bool.not_eq_false'] at h
    exact .close h.1 h.2

/-- **Every move is one of the changes**, and settles the outcome that it says. -/
theorem step_transition (g : Generator) (service : Service σ) (r : Run σ) (m : Move) :
    Transition g service r (r.outcome? g m) (r.step g service m) := by
  cases m with
  | file w => exact stepFile_transition g service r w
  | symbol w s => exact stepSymbol_transition g service r w s
  | answer w s => exact stepAnswer_transition g service r w s
  | abandon w s => exact stepAbandon_transition g service r w s
  | cancel => exact .cancel
  | close => exact stepClose_transition g service r

/-! ### Cancelled runs -/

/-- A move never takes a cancellation back. -/
theorem cancelled_of_step {g : Generator} {service : Service σ} {r r' : Run σ}
    {o : Option Outcome} (h : Transition g service r o r') (hr : r'.cancelled = false) :
    r.cancelled = false := by
  cases h with
  | ask w s job c =>
    simp only [askService, setJob, Bool.or_eq_false_iff] at hr
    exact hr.1
  | cancel => cases hr
  | _ => exact hr

/-- A run that is not cancelled at the end was not cancelled at its beginning. -/
theorem cancelled_of_run {g : Generator} {service : Service σ} {r : Run σ} {moves : List Move}
    (hr : (r.run g service moves).cancelled = false) : r.cancelled = false := by
  induction moves generalizing r with
  | nil => exact hr
  | cons m moves ih => exact cancelled_of_step (step_transition g service r m) (ih hr)

end Run

end Docsmith
