import Docsmith.Proofs.Generate.History
import Mathlib.Algebra.BigOperators.Group.List.Basic
import Mathlib.Algebra.GroupWithZero.Nat

namespace Docsmith

/-!
# Runs come to an end

What is left to do in a run is a number that no move raises.  As long as the streams are open, some
worker can go on in every round, unless it waits for an answer that never comes in a run that nobody
cancels.  So a run in which the workers take turns is closed after a number of rounds that is known
from the beginning.

* `Run.work`: what is left to do, and `Run.Transition.work_lt`: a move that changes something lowers
  it.
* `Run.Answered`: no worker waits for an answer that never comes.
* `Run.exists_move`: a worker can go on.
* `Run.driveFrom_closed`, `Run.drive_closed`: taking turns closes a run.
-/

/-! ### What is left to do -/

/-- What is left to do for a symbol that was begun, one more than for its worker alone. -/
def SymbolJob.work : SymbolJob → Nat
  | building _ => 4
  | asking _ => 3
  | waiting _ _ => 2

/-- What is left to do for a worker, given that for its job. -/
def Slot.work {β : Type} (job : β → Nat) : Slot β → Nat
  | idle => 1
  | busy b => job b
  | gone => 0

/-- What is left to do in a pool, given that for an item that waits and for a job. -/
def Pool.work {α β : Type} (item : α → Nat) (job : β → Nat) (p : Pool α β) : Nat :=
  (p.slots.map (Slot.work job)).sum + (p.queue.map item).sum

/-- What is left to do for an open file, closing it included. -/
def FileJob.work (job : FileJob) : Nat := job.pool.work (fun _ => 4) SymbolJob.work + 2

/-- What is left to do for a file that waits: more than for the same file once it is open. -/
def waitingWork (file : String × List Input) : Nat := 5 * file.2.length + 2

/-- What is left to do in a run: for its workers, to close its streams, and to cancel it once. -/
def Run.work {σ : Type} (r : Run σ) : Nat :=
  r.pool.work waitingWork FileJob.work + (if r.closed then 0 else 1) + if r.cancelled then 0 else 1

namespace Pool

variable {α β : Type} (item : α → Nat) (job : β → Nat)

/-- A worker changes what is left to do by its own share and by what waits. -/
theorem work_set {p p' : Pool α β} {w : Nat} {old new : Slot β} (h : p.slots[w]? = some old)
    (hset : p'.slots = p.slots.set w new) :
    p'.work item job + (old.work job + (p.queue.map item).sum)
      = p.work item job + (new.work job + (p'.queue.map item).sum) := by
  obtain ⟨hw, hold⟩ := List.getElem?_eq_some_iff.mp h
  have hsplit : p.slots = p.slots.take w ++ old :: p.slots.drop (w + 1) := by
    rw [← hold, ← List.drop_eq_getElem_cons hw, List.take_append_drop]
  have hbefore : (p.slots.map (Slot.work job)).sum = ((p.slots.take w).map (Slot.work job)).sum
      + (old.work job + ((p.slots.drop (w + 1)).map (Slot.work job)).sum) := by
    conv_lhs => rw [hsplit]
    simp
  have hafter : (p'.slots.map (Slot.work job)).sum = ((p.slots.take w).map (Slot.work job)).sum
      + (new.work job + ((p.slots.drop (w + 1)).map (Slot.work job)).sum) := by
    rw [hset, List.set_eq_take_append_cons_drop, if_pos hw]
    simp
  rw [work, work, hbefore, hafter]
  omega

/-- At the beginning every worker has to leave, and every item has to be taken. -/
theorem work_start_le (size : Nat) (items : List α) :
    (start size items : Pool α β).work item job ≤ items.length + (items.map item).sum := by
  have hslots : ((start size items : Pool α β).slots.map (Slot.work job)).sum
      = min size items.length := by
    simp [start, Slot.work]
  rw [work, hslots]
  show min size items.length + (items.map item).sum ≤ _
  omega

end Pool

namespace Run

variable {σ : Type} {g : Generator} {service : Service σ}

/-- What a worker leaves behind is no more than what waited. -/
theorem Leaves.sum_le {α : Type} {cancelled admits : Bool} {queue left : List α}
    (h : Leaves cancelled admits queue left) (item : α → Nat) :
    (left.map item).sum ≤ (queue.map item).sum := by
  rcases h with ⟨rfl, -⟩ | ⟨x, rfl, -⟩
  · exact Nat.le_refl _
  · simp

/-- A worker for files that has less to do than before lowers what is left in the run. -/
theorem work_setFile {r r' : Run σ} {w : Nat} {old new : Slot FileJob}
    (hslot : r.pool.slots[w]? = some old) (hset : r'.pool.slots = r.pool.slots.set w new)
    (hclosed : r'.closed = r.closed) (hcancelled : r.cancelled = true → r'.cancelled = true)
    (hless : new.work FileJob.work + (r'.pool.queue.map waitingWork).sum
      < old.work FileJob.work + (r.pool.queue.map waitingWork).sum) : r'.work < r.work := by
  have hwork := Pool.work_set waitingWork FileJob.work hslot hset
  have hflag : (if r'.cancelled then 0 else 1) ≤ if r.cancelled then 0 else 1 := by
    cases hc : r.cancelled with
    | true => simp [hcancelled hc]
    | false => cases r'.cancelled <;> simp
  unfold work
  rw [hclosed]
  omega

/-- A worker for symbols that has less to do than before lowers what is left in the run. -/
theorem work_setJob {r r' : Run σ} {w s : Nat} {job job' : FileJob} {old new : Slot SymbolJob}
    (hbusy : r.pool.slots[w]? = some (.busy job)) (hslot : job.pool.slots[s]? = some old)
    (hpool : r'.pool = r.pool.set w (.busy job'))
    (hset : job'.pool.slots = job.pool.slots.set s new) (hclosed : r'.closed = r.closed)
    (hcancelled : r.cancelled = true → r'.cancelled = true)
    (hless : new.work SymbolJob.work + (job'.pool.queue.map fun _ => 4).sum
      < old.work SymbolJob.work + (job.pool.queue.map fun _ => 4).sum) : r'.work < r.work := by
  have hwork := Pool.work_set (fun _ => 4) SymbolJob.work hslot hset
  have hfile : job'.work < job.work := by
    unfold FileJob.work
    omega
  refine work_setFile hbusy (congrArg Pool.slots hpool) hclosed hcancelled ?_
  rw [hpool]
  exact Nat.add_lt_add_right hfile _

/-- A worker that goes on with its symbol, and is nearer to its end, lowers what is left in the
    run. -/
theorem work_setSymbol {r r' : Run σ} {w s : Nat} {job job' : FileJob} {old new : Slot SymbolJob}
    (hbusy : r.pool.slots[w]? = some (.busy job)) (hslot : job.pool.slots[s]? = some old)
    (hpool : r'.pool = r.pool.set w (.busy job')) (hnew : job'.pool = job.pool.set s new)
    (hclosed : r'.closed = r.closed) (hcancelled : r.cancelled = true → r'.cancelled = true)
    (hless : new.work SymbolJob.work < old.work SymbolJob.work) : r'.work < r.work := by
  refine work_setJob hbusy hslot hpool (congrArg Pool.slots hnew) hclosed hcancelled ?_
  rw [hnew]
  exact Nat.add_lt_add_right hless _

/-- Opening a file leaves less to do than it took while it waited. -/
theorem work_openFile_le (g : Generator) (path : String) (inputs : List Input) :
    (openFile g path inputs).work ≤ waitingWork (path, inputs) := by
  have hstart := Pool.work_start_le (fun _ => 4) SymbolJob.work g.symbolWorkerCount inputs
  rw [List.map_const', List.sum_replicate_nat] at hstart
  show (Pool.start g.symbolWorkerCount inputs).work _ _ + 2 ≤ 5 * inputs.length + 2
  omega

/-- **A move leaves less to do**, unless it changes nothing. -/
theorem Transition.work_lt {r r' : Run σ} {o : Option Outcome} (ht : Transition g service r o r') :
    r' = r ∨ r'.work < r.work := by
  -- each case weighs the slot and the queue before the move against those after it
  cases ht with
  | stay => exact .inl rfl
  | openNext w path inputs rest idle queue =>
    refine .inr (work_setFile idle rfl rfl id ?_)
    have hopen := work_openFile_le g path inputs
    show (openFile g path inputs).work + (rest.map waitingWork).sum < 1 + _
    rw [queue, List.map_cons, List.sum_cons]
    omega
  | leaveFiles w left idle why =>
    refine .inr (work_setFile idle rfl rfl id ?_)
    have hleft := why.sum_le waitingWork
    show 0 + (left.map waitingWork).sum < 1 + _
    omega
  | closeFile w job busy done =>
    refine .inr (work_setFile busy rfl rfl id ?_)
    show 1 + (r.pool.queue.map waitingWork).sum < job.pool.work _ _ + 2 + _
    omega
  -- a queued symbol counts four and an idle slot one, so taking it pays for the four steps it starts
  | startNext w s job input rest busy idle queue =>
    refine .inr (work_setJob busy idle rfl rfl rfl id ?_)
    show 4 + (rest.map fun _ => 4).sum < 1 + _
    rw [queue, List.map_cons, List.sum_cons]
    omega
  | leaveSymbols w s job left busy idle why =>
    refine .inr (work_setJob busy idle rfl rfl rfl id ?_)
    have hleft := why.sum_le fun _ => 4
    show 0 + (left.map fun _ => 4).sum < 1 + _
    omega
  | contextFails w s job input f busy building =>
    exact .inr (work_setSymbol busy building rfl rfl rfl id (show 1 < 4 by decide))
  | contextBuilt w s job input c busy building =>
    refine .inr (work_setSymbol busy building rfl rfl rfl id ?_)
    split
    case isTrue => exact (show 1 < 4 by decide)
    case isFalse => exact (show 3 < 4 by decide)
  | ask w s job c busy asking =>
    have hkeeps : r.cancelled = true → (r.askService service w s job c).cancelled = true := by
      intro hc
      simp [askService, setJob, hc]
    exact .inr (work_setSymbol busy asking rfl rfl rfl hkeeps (show 2 < 3 by decide))
  | returns w s job input text busy waiting =>
    exact .inr (work_setSymbol busy waiting rfl rfl rfl id (show 1 < 2 by decide))
  | faults w s job input f busy waiting =>
    exact .inr (work_setSymbol busy waiting rfl rfl rfl id (show 1 < 2 by decide))
  | abandon w s job input answer busy waiting =>
    exact .inr (work_setSymbol busy waiting rfl rfl rfl id (show 1 < 2 by decide))
  -- the second cancel of a run does nothing; the first one takes its own unit of work
  | cancel =>
    cases hc : r.cancelled with
    | true =>
      refine .inl ?_
      rw [← hc]
    | false =>
      refine .inr ?_
      simp [work, hc]
  | close running done =>
    refine .inr ?_
    simp [work, running]

/-! ### What workers are busy with -/

/-- Everything that workers for symbols are busy with satisfies a condition. -/
def Every (P : SymbolJob → Prop) (r : Run σ) : Prop :=
  ∀ job ∈ r.pool.jobs, ∀ symbol ∈ job.pool.jobs, P symbol

variable {P : SymbolJob → Prop}

theorem every_start (g : Generator) (files : List (String × List Input)) (state : σ) :
    Every P (start g files state) := by
  have hjobs : (start g files state).pool.jobs = [] := Pool.jobs_start _ files
  unfold Every
  rw [hjobs]
  intro job hjob
  cases hjob

/-- A worker for files whose file satisfies the condition keeps it. -/
theorem Every.setFile {r r' : Run σ} {w : Nat} {new : Slot FileJob}
    {left : List (String × List Input)} (h : Every P r)
    (hpool : r'.pool = { r.pool with queue := left }.set w new)
    (hnew : ∀ job ∈ new.job?, ∀ symbol ∈ job.pool.jobs, P symbol) : Every P r' := by
  intro job hjob
  rw [hpool] at hjob
  exact (Pool.mem_jobs_set hjob).elim (hnew job) (h job)

/-- A worker for symbols that goes on to something which satisfies the condition keeps it. -/
theorem Every.setJob {r r' : Run σ} {w s : Nat} {job job' : FileJob} {new : Slot SymbolJob}
    {left : List Input} (h : Every P r) (hbusy : r.pool.slots[w]? = some (.busy job))
    (hpool : r'.pool = r.pool.set w (.busy job'))
    (hjob : job'.pool = { job.pool with queue := left }.set s new)
    (hnew : ∀ symbol ∈ new.job?, P symbol) : Every P r' := by
  refine h.setFile hpool ?_
  intro own hown symbol hsymbol
  have heq : job' = own := by simpa [Slot.job?] using hown
  rw [← heq, hjob] at hsymbol
  exact (Pool.mem_jobs_set hsymbol).elim (hnew symbol) (h job (Pool.mem_jobs hbusy) symbol)

/-- **A condition on what workers are busy with is kept** if it holds of every symbol that is begun,
    of every context that is built, and of every answer to a question of which it held. -/
theorem Every.move {r r' : Run σ} {o : Option Outcome} (h : Every P r)
    (ht : Transition g service r o r') (hbuilding : ∀ input, P (.building input))
    (hasking : ∀ input c, (g.context r.caches input).result = .ok c → P (.asking c))
    (hwaiting : ∀ c, P (.asking c) → P (.waiting c.input (service.ask c r.service).1.answer)) :
    Every P r' := by
  cases ht with
  | stay => exact h
  | openNext w path inputs =>
    -- a file that was just opened has no symbol in hand
    refine h.setFile rfl ?_
    intro job hjob symbol hsymbol
    cases hjob
    rw [openFile, Pool.jobs_start] at hsymbol
    cases hsymbol
  | leaveFiles => exact h.setFile rfl (by simp [Slot.job?])
  | closeFile => exact h.setFile rfl (by simp [Slot.job?])
  | startNext w s job input rest busy =>
    exact h.setJob busy rfl rfl (by simp [Slot.job?, hbuilding])
  | leaveSymbols w s job left busy => exact h.setJob busy rfl rfl (by simp [Slot.job?])
  | contextFails w s job input f busy => exact h.setJob busy rfl rfl (by simp [Slot.job?])
  | contextBuilt w s job input c busy building result =>
    refine h.setJob busy rfl rfl ?_
    -- a run cancelled while the context was built drops the symbol, and the slot is empty
    split
    case isTrue => simp [Slot.job?]
    case isFalse => simp [Slot.job?, hasking input c result]
  | ask w s job c busy asking =>
    -- the symbol that asks was covered before, and `hwaiting` carries its property over to the answer
    have hc : P (.asking c) := h job (Pool.mem_jobs busy) _ (Pool.mem_jobs asking)
    exact h.setJob busy rfl rfl (by simp [Slot.job?, hwaiting c hc])
  | returns w s job input text busy => exact h.setJob busy rfl rfl (by simp [Slot.job?])
  | faults w s job input f busy => exact h.setJob busy rfl rfl (by simp [Slot.job?])
  | abandon w s job input answer busy => exact h.setJob busy rfl rfl (by simp [Slot.job?])
  | cancel => exact h
  | close => exact h

/-- No worker waits for an answer that never comes. -/
def Answered (r : Run σ) : Prop := Every (fun symbol => ∀ input, symbol ≠ .waiting input .never) r

/-- With a service that answers every question, no worker comes to wait in vain. -/
theorem answered_of_run (hservice : ∀ c state, (service.ask c state).1.answer ≠ .never) {r : Run σ}
    (h : r.Answered) (moves : List Move) : (r.run g service moves).Answered := by
  induction moves generalizing r with
  | nil => exact h
  | cons m moves ih =>
    refine ih (h.move (step_transition g service r m) (by simp) (by simp) ?_)
    intro c _ input heq
    exact hservice c r.service (SymbolJob.waiting.inj heq).2

/-! ### A worker can go on -/

/-- A worker for files that looks for an item takes one or leaves. -/
theorem stepFile_ne_of_idle {r : Run σ} {w : Nat} (hslot : r.pool.slots[w]? = some .idle) :
    r.stepFile g w ≠ r := by
  obtain ⟨hw, -⟩ := List.getElem?_eq_some_iff.mp hslot
  intro heq
  have hsame : (r.stepFile g w).pool.slots[w]? = some .idle := by rw [heq, hslot]
  simp only [stepFile, hslot] at hsame
  rcases Pool.next_cases r.cancelled (fun _ => r.admitsFile g) r.pool.queue with
    ⟨⟨path, inputs⟩, rest, -, -, -, hnext⟩ | ⟨left, hnext, -⟩
  · simp [hnext, Pool.set, hw] at hsame
  · simp [hnext, Pool.set, hw] at hsame

/-- A worker whose file is done closes it. -/
theorem stepFile_ne_of_done {r : Run σ} {w : Nat} {job : FileJob}
    (hslot : r.pool.slots[w]? = some (.busy job)) (hdone : job.pool.done = true) :
    r.stepFile g w ≠ r := by
  obtain ⟨hw, -⟩ := List.getElem?_eq_some_iff.mp hslot
  intro heq
  have hsame : (r.stepFile g w).pool.slots[w]? = some (.busy job) := by rw [heq, hslot]
  simp only [stepFile, hslot, hdone] at hsame
  simp [Pool.set, hw] at hsame

/-- A worker for symbols that changes its state changes the run. -/
theorem ne_of_setJob {r r' : Run σ} {w s : Nat} {job job' : FileJob} {old new : Slot SymbolJob}
    (hbusy : r.pool.slots[w]? = some (.busy job)) (hslot : job.pool.slots[s]? = some old)
    (hpool : r'.pool = r.pool.set w (.busy job'))
    (hset : job'.pool.slots = job.pool.slots.set s new) (hne : new ≠ old) : r' ≠ r := by
  obtain ⟨hw, -⟩ := List.getElem?_eq_some_iff.mp hbusy
  obtain ⟨hs, -⟩ := List.getElem?_eq_some_iff.mp hslot
  rintro rfl
  have hjob : job' = job := by
    rw [hpool] at hbusy
    simpa [Pool.set, hw] using hbusy
  rw [← hjob, hset] at hslot
  simp [hs] at hslot
  exact hne hslot

/-- A worker for symbols that is not gone can go on in its turn, unless it waits for an answer that
    never comes and the run is not cancelled. -/
theorem exists_symbolMove {r : Run σ} {w s : Nat} {job : FileJob} {slot : Slot SymbolJob}
    (halive : r.cancelled = true ∨ r.Answered) (hbusy : r.pool.slots[w]? = some (.busy job))
    (hslot : job.pool.slots[s]? = some slot) (hgone : slot.isGone = false) :
    ∃ m ∈ symbolTurn w job.pool.slots s, r.step g service m ≠ r := by
  have hjob : r.job? w = some job := job?_eq_some.mpr hbusy
  cases slot with
  | gone => cases hgone
  | idle =>
    refine ⟨.symbol w s, by simp [symbolTurn, hslot], ?_⟩
    show r.stepSymbol g service w s ≠ r
    simp only [stepSymbol, hjob, hslot, takeSymbol]
    rcases Pool.next_cases r.cancelled (fun _ => r.admitsSymbol g job) job.pool.queue with
      ⟨input, rest, -, -, -, hnext⟩ | ⟨left, hnext, -⟩
    · rw [hnext]
      exact ne_of_setJob hbusy hslot rfl rfl (by simp)
    · rw [hnext]
      exact ne_of_setJob hbusy hslot rfl rfl (by simp)
  | busy symbol =>
    cases symbol with
    | building input =>
      refine ⟨.symbol w s, by simp [symbolTurn, hslot], ?_⟩
      show r.stepSymbol g service w s ≠ r
      simp only [stepSymbol, hjob, hslot, buildContext]
      cases (g.context r.caches input).result with
      | error f => exact ne_of_setJob hbusy hslot rfl rfl (by simp)
      | ok c => exact ne_of_setJob hbusy hslot rfl rfl (by split <;> simp)
    | asking c =>
      refine ⟨.symbol w s, by simp [symbolTurn, hslot], ?_⟩
      show r.stepSymbol g service w s ≠ r
      simp only [stepSymbol, hjob, hslot, askService]
      exact ne_of_setJob hbusy hslot rfl rfl (by simp)
    | waiting input answer =>
      by_cases hnever : answer = .never
      · -- nobody answers, so that the run must be cancelled
        have hcancelled : r.cancelled = true := by
          refine halive.resolve_right fun hanswered => ?_
          exact hanswered job (Pool.mem_jobs hbusy) _ (Pool.mem_jobs hslot) input (by rw [hnever])
        refine ⟨.abandon w s, by simp [symbolTurn, hslot], ?_⟩
        show r.stepAbandon w s ≠ r
        simp only [stepAbandon, hcancelled, hjob, hslot]
        exact ne_of_setJob hbusy hslot rfl rfl (by simp)
      · refine ⟨.answer w s, by simp [symbolTurn, hslot], ?_⟩
        show r.stepAnswer g w s ≠ r
        cases answer with
        | never => exact absurd rfl hnever
        | text text =>
          simp only [stepAnswer, hjob, hslot]
          exact ne_of_setJob hbusy hslot rfl rfl (by simp)
        | fault f =>
          simp only [stepAnswer, hjob, hslot]
          exact ne_of_setJob hbusy hslot rfl rfl (by simp)

/-- A pool that is not done has a worker that is not gone. -/
theorem exists_of_not_done {α β : Type} {p : Pool α β} (h : p.done = false) :
    ∃ (w : Nat) (slot : Slot β), p.slots[w]? = some slot ∧ slot.isGone = false := by
  obtain ⟨slot, hmem, hgone⟩ := List.all_eq_false.mp h
  obtain ⟨w, hw⟩ := List.mem_iff_getElem?.mp hmem
  exact ⟨w, slot, hw, by simpa using hgone⟩

/-- **Some worker can go on** in a round of a run whose streams are open, or they can be closed. -/
theorem exists_move {r : Run σ} (halive : r.cancelled = true ∨ r.Answered)
    (hopen : r.closed = false) : ∃ m ∈ r.round, r.step g service m ≠ r := by
  -- all workers gone: only closing is left, and it changes the flag
  cases hdone : r.pool.done with
  | true =>
    refine ⟨.close, by simp [round], ?_⟩
    intro heq
    have hsame : (r.stepClose).closed = false := by
      rw [show r.stepClose = r from heq, hopen]
    simp [stepClose, hopen, hdone] at hsame
  | false =>
    obtain ⟨w, slot, hslot, hgone⟩ := exists_of_not_done hdone
    obtain ⟨hw, -⟩ := List.getElem?_eq_some_iff.mp hslot
    have hturn : ∀ m ∈ r.fileTurn w, m ∈ r.round := by
      intro m hm
      exact List.mem_append_left _ (List.mem_flatMap.mpr ⟨w, List.mem_range.mpr hw, hm⟩)
    cases slot with
    | gone => cases hgone
    | idle =>
      -- an idle worker opens a file or leaves; either way its slot changes
      have hnone : r.job? w = none := by simp [job?, hslot, Slot.job?]
      refine ⟨.file w, hturn _ (by simp [fileTurn, hnone]), ?_⟩
      exact stepFile_ne_of_idle hslot
    | busy job =>
      have hjob : r.job? w = some job := job?_eq_some.mpr hslot
      cases hend : job.pool.done with
      | true =>
        refine ⟨.file w, hturn _ (by simp [fileTurn, hjob]), ?_⟩
        exact stepFile_ne_of_done hslot hend
      | false =>
        -- some symbol of the file can move, and its move belongs to this file's turn
        obtain ⟨s, symbol, hsymbol, hstays⟩ := exists_of_not_done hend
        obtain ⟨hs, -⟩ := List.getElem?_eq_some_iff.mp hsymbol
        obtain ⟨m, hm, hne⟩ := exists_symbolMove halive hslot hsymbol hstays
        refine ⟨m, hturn _ ?_, hne⟩
        simp only [fileTurn, hjob]
        exact List.mem_append_left _ (List.mem_flatMap.mpr ⟨s, List.mem_range.mpr hs, hm⟩)

/-! ### Taking turns -/

theorem work_run_le (r : Run σ) (moves : List Move) : (r.run g service moves).work ≤ r.work := by
  induction moves generalizing r with
  | nil => exact Nat.le_refl _
  | cons m moves ih =>
    have hstep : (r.step g service m).work ≤ r.work := by
      rcases (step_transition g service r m).work_lt with heq | hlt
      · exact Nat.le_of_eq (congrArg work heq)
      · exact Nat.le_of_lt hlt
    exact Nat.le_trans (ih (r.step g service m)) hstep

/-- Moves of which one can be made leave less to do than before, whichever is made first. -/
theorem work_run_lt {r : Run σ} {moves : List Move}
    (hmove : ∃ m ∈ moves, r.step g service m ≠ r) : (r.run g service moves).work < r.work := by
  induction moves with
  | nil =>
    obtain ⟨m, hm, -⟩ := hmove
    cases hm
  | cons m moves ih =>
    show ((r.step g service m).run g service moves).work < r.work
    rcases (step_transition g service r m).work_lt with hstay | hlt
    · -- the first of them changes nothing, so that another one can be made
      have hlater : ∃ m ∈ moves, r.step g service m ≠ r := by
        obtain ⟨m', hm', hne⟩ := hmove
        rcases List.mem_cons.mp hm' with rfl | hlater
        · exact absurd hstay hne
        · exact ⟨m', hlater, hne⟩
      rw [hstay]
      exact ih hlater
    · exact Nat.lt_of_le_of_lt (work_run_le _ moves) hlt

/-- **Taking turns closes a run** that is cancelled, or whose service answers every question, after
    as many rounds as there is left to do. -/
theorem driveFrom_closed {rounds : Nat} {r : Run σ}
    (halive : r.cancelled = true ∨
      (∀ c state, (service.ask c state).1.answer ≠ .never) ∧ r.Answered)
    (hrounds : r.work ≤ rounds) : (r.driveFrom g service rounds).closed = true := by
  induction rounds generalizing r with
  | zero =>
    show r.closed = true
    by_contra hopen
    have hwork : r.work = 0 := Nat.le_zero.mp hrounds
    simp [work, hopen] at hwork
  | succ rounds ih =>
    unfold driveFrom
    split
    case isTrue hclosed => exact hclosed
    case isFalse hopen =>
      have hmove : ∃ m ∈ r.round, r.step g service m ≠ r :=
        exists_move (halive.imp_right And.right) (by simpa using hopen)
      -- the round lowers what is left, so that the rounds that remain suffice
      have hless := work_run_lt hmove
      refine ih (halive.imp ?_ ?_) (by omega)
      · intro hcancelled
        by_contra hlive
        rw [Bool.not_eq_true] at hlive
        simp [cancelled_of_run hlive] at hcancelled
      · rintro ⟨hservice, hanswered⟩
        exact ⟨hservice, answered_of_run hservice hanswered r.round⟩

/-- The number of rounds that a run is driven for suffices from its beginning. -/
theorem work_start_le (g : Generator) (files : List (String × List Input)) (state : σ) :
    (start g files state).work ≤ (start g files state).enough := by
  -- from any number on, each file adds more rounds than it leaves to do
  have henough : ∀ n, n + files.length + (files.map waitingWork).sum
      ≤ files.foldl (fun n file => n + 6 * file.2.length + 6) n := by
    induction files with
    | nil => simp
    | cons file files ih =>
      intro n
      have hrest := ih (n + 6 * file.2.length + 6)
      simp only [List.foldl_cons, List.length_cons, List.map_cons, List.sum_cons, waitingWork] at *
      omega
  have hsix := henough 6
  have hpool := Pool.work_start_le waitingWork FileJob.work g.fileWorkerCount files
  show (Pool.start g.fileWorkerCount files : Pool _ FileJob).work waitingWork FileJob.work + 1 + 1
    ≤ files.foldl (fun n file => n + 6 * file.2.length + 6) 6
  omega

/-- A run is driven to its end when its service answers every question. -/
theorem drive_closed (hservice : ∀ c state, (service.ask c state).1.answer ≠ .never)
    (files : List (String × List Input)) (state : σ) :
    ((start g files state).drive g service).closed = true :=
  driveFrom_closed (.inr ⟨hservice, every_start g files state⟩) (work_start_le g files state)

end Run

end Docsmith
