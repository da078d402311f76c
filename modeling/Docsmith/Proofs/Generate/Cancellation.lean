import Docsmith.Proofs.Generate.Progress

namespace Docsmith

open List

/-!
# Cancelling a run is safe

A run may be cancelled between any two moves.  From then on nothing is begun; what was begun before
comes to an outcome or is dropped without one; and when the last worker is gone, each stream gets
its end behind everything that was put on it.

* `drained`: what a consumer has who reads a stream up to its end.
* `Run.quiet_of_cancelled`: a cancelled run begins nothing.
* `Run.Streams`: the invariant that ties the streams to the history, `Run.Streams.turn`: a turn
  keeps it, and `Run.streams_of_run`: so does a run.
* `Run.cancellation_is_safe`: what holds at every moment, cancelled or not.
-/

/-! ### Streams -/

/-- What a consumer has who reads a stream up to its end; there is nothing yet while the end is not
    there. -/
def drained {α : Type} : List (Option α) → Option (List α)
  | [] => none
  | none :: _ => some []
  | some x :: rest => (drained rest).map (x :: ·)

/-- A consumer has all items that were put on a stream before its end. -/
theorem drained_append {α : Type} (items : List α) (rest : List (Option α)) :
    drained (items.map some ++ none :: rest) = some items := by
  induction items with
  | nil => rfl
  | cons x items ih =>
    show (drained (items.map some ++ none :: rest)).map (x :: ·) = some (x :: items)
    rw [ih]
    rfl

namespace Run

variable {σ : Type} {g : Generator} {service : Service σ}

/-! ### Nothing is begun after a cancellation -/

/-- A turn of a cancelled run opens no file and begins no symbol, and leaves the run cancelled. -/
theorem Turn.quiet {r r' : Run σ} {e : Option Event} (ht : Turn g r e r')
    (hcancelled : r.cancelled = true) :
    History.files e.toList = [] ∧ History.begun e.toList = [] ∧ r'.cancelled = true ∧
      r'.started = r.started ∧ r'.dispatched = r.dispatched := by
  have hlive : r.cancelled ≠ false := by simp [hcancelled]
  -- the two moves that admit work ask for a run that is not cancelled; the others leave the counts alone
  cases ht with
  | stay => exact ⟨rfl, rfl, hcancelled, rfl, rfl⟩
  | opens w path inputs rest idle queue live => exact absurd live hlive
  | leaves => exact ⟨rfl, rfl, hcancelled, rfl, rfl⟩
  | shuts => exact ⟨rfl, rfl, hcancelled, rfl, rfl⟩
  | begins w s job input rest busy idle queue live => exact absurd live hlive
  | retires => exact ⟨rfl, rfl, hcancelled, rfl, rfl⟩
  | advances w s job symbol next r' busy slot same pool keeps =>
    exact ⟨rfl, rfl, keeps.cancelled hcancelled, keeps.started, keeps.dispatched⟩
  | settles w s job symbol o r' busy slot about pool keeps =>
    exact ⟨rfl, rfl, keeps.cancelled hcancelled, keeps.started, keeps.dispatched⟩
  | drops w s job symbol r' busy slot cancelled pool keeps =>
    exact ⟨rfl, rfl, keeps.cancelled hcancelled, keeps.started, keeps.dispatched⟩
  | cancels => exact ⟨rfl, rfl, rfl, rfl, rfl⟩
  | closes => exact ⟨rfl, rfl, hcancelled, rfl, rfl⟩

/-- A cancelled run opens no file and begins no symbol, whatever moves follow. -/
theorem quiet_of_cancelled {r : Run σ} (hcancelled : r.cancelled = true) (moves : List Move) :
    (r.events g service moves).files = [] ∧ (r.events g service moves).begun = [] ∧
      (r.run g service moves).cancelled = true ∧
      (r.run g service moves).started = r.started ∧
      (r.run g service moves).dispatched = r.dispatched := by
  refine history_induction (fun log r' => log.files = [] ∧ log.begun = [] ∧ r'.cancelled = true ∧
    r'.started = r.started ∧ r'.dispatched = r.dispatched) ?_ ⟨rfl, rfl, hcancelled, rfl, rfl⟩ moves
  rintro log r₁ e r₂ ⟨hfiles, hbegun, hc, hstarted, hdispatched⟩ ht
  obtain ⟨hfiles', hbegun', hc', hstarted', hdispatched'⟩ := ht.quiet hc
  refine ⟨?_, ?_, hc', hstarted'.trans hstarted, hdispatched'.trans hdispatched⟩
  · rw [History.files_append, hfiles, hfiles']
    rfl
  · rw [History.begun_append, hbegun, hbegun']
    rfl

/-! ### What is on the streams -/

/-- The end of the streams, once they are closed. -/
def ending (r : Run σ) {α : Type} : List (Option α) := if r.closed then [none] else []

/-- The streams carry what the history says, and nothing behind their end. -/
structure Streams (log : History) (r : Run σ) : Prop where
  files : r.files = r.generated.map some ++ r.ending
  errors : r.errors = r.failed.map some ++ r.ending
  failed : r.failed = log.outcomes.filterMap Outcome.error?
  docs : r.generated.flatMap GeneratedFile.docs ++ r.pool.jobs.flatMap FileJob.docs
    ~ log.outcomes.filterMap Outcome.doc?
  dropped : log.dropped ≠ [] → r.cancelled = true
  ended : r.closed = true → r.pool.done = true

theorem streams_start (g : Generator) (files : List (String × List Input)) (state : σ) :
    Streams [] (start g files state) := by
  have hjobs : (start g files state).pool.jobs = [] := Pool.jobs_start _ files
  constructor
  case files => rfl
  case errors => rfl
  case failed => rfl
  case docs => rw [hjobs]; exact Perm.refl _
  case dropped => intro h; exact absurd rfl h
  case ended => intro h; cases h

namespace Streams

variable {log : History} {r r' : Run σ}

/-- While the streams are open, they carry results only. -/
theorem files_of_open (h : Streams log r) (hopen : r.closed = false) :
    r.files = r.generated.map some := by
  simpa [ending, hopen] using h.files

theorem errors_of_open (h : Streams log r) (hopen : r.closed = false) :
    r.errors = r.failed.map some := by
  simpa [ending, hopen] using h.errors

/-- What a worker does keeps the streams, if it puts the errors of the outcomes that it notes on the
    stream, adds their documentation to that of its file, and drops a symbol only in a cancelled
    run. -/
theorem worker {e : Option Event} {w : Nat} {old new : Slot FileJob}
    {left : List (String × List Input)} (h : Streams log r)
    (hslot : r.pool.slots[w]? = some old) (hstays : old ≠ .gone)
    (hpool : r'.pool = { r.pool with queue := left }.set w new) (hfiles : r'.files = r.files)
    (hclosed : r'.closed = r.closed) (hcancelled : r.cancelled = true → r'.cancelled = true)
    (herrors : r'.errors
      = r.errors ++ ((History.outcomes e.toList).filterMap Outcome.error?).map some)
    (hdocs : new.job?.toList.flatMap FileJob.docs = old.job?.toList.flatMap FileJob.docs
      ++ (History.outcomes e.toList).filterMap Outcome.doc?)
    (hdropped : History.dropped e.toList ≠ [] → r.cancelled = true) :
    Streams (log ++ e.toList) r' := by
  -- while this worker is there, the streams have no end to come behind
  have hopen : r.closed = false := open_of_slot h.ended hslot hstays
  have hopen' : r'.closed = false := hclosed.trans hopen
  have hgenerated : r'.generated = r.generated := congrArg (List.filterMap id) hfiles
  have hfailed : r'.failed = r.failed ++ (History.outcomes e.toList).filterMap Outcome.error? := by
    show r'.errors.filterMap id = r.errors.filterMap id ++ _
    rw [herrors, List.filterMap_append]
    simp
  obtain ⟨others, hjobs, hjobs'⟩ := Pool.jobs_others hslot
  constructor
  case files =>
    rw [hgenerated, hfiles, h.files_of_open hopen]
    simp [ending, hopen']
  case errors =>
    rw [hfailed, herrors, h.errors_of_open hopen]
    simp [ending, hopen']
  case failed => rw [hfailed, h.failed, History.outcomes_append, List.filterMap_append]
  case docs =>
    have hbefore := hjobs.flatMap_right FileJob.docs
    have hafter := (hjobs' left new).flatMap_right FileJob.docs
    have hsame := h.docs
    rw [← hpool] at hafter
    rw [hgenerated, History.outcomes_append, List.filterMap_append]
    rw [List.perm_iff_count] at hbefore hafter hsame ⊢
    intro a
    have h1 := hbefore a
    have h2 := hafter a
    have h3 := hsame a
    simp only [List.flatMap_append, hdocs, List.count_append] at h1 h2 h3 ⊢
    omega
  case dropped =>
    rw [History.dropped_append]
    intro hne
    by_cases hbefore : log.dropped = []
    · rw [hbefore, List.nil_append] at hne
      exact hcancelled (hdropped hne)
    · exact hcancelled (h.dropped hbefore)
  case ended =>
    intro hc
    simp [hopen'] at hc

/-- What came out of a file that is closed is put on the stream. -/
theorem shuts {w : Nat} {job : FileJob} (h : Streams log r)
    (hbusy : r.pool.slots[w]? = some (.busy job)) :
    Streams log
      { r with
        pool := r.pool.set w .idle
        files := if job.docs.isEmpty then r.files
          else r.files ++ [some { path := job.path, docs := job.docs }] } := by
  have hopen : r.closed = false := open_of_slot h.ended hbusy (by simp)
  obtain ⟨others, hjobs, hjobs'⟩ := Pool.jobs_others hbusy
  constructor
  case files =>
    have hold : r.files = (r.files.filterMap id).map some := h.files_of_open hopen
    simp only [generated, ending, hopen, Bool.false_eq_true, if_false, List.append_nil]
    split
    case isTrue => exact hold
    case isFalse =>
      rw [List.filterMap_append, List.map_append, ← hold]
      rfl
  case errors => exact h.errors
  case failed => exact h.failed
  case docs =>
    -- the documentation goes from the file to the stream, and none is lost when there is none
    have hpublished : ((if job.docs.isEmpty then r.files
          else r.files ++ [some { path := job.path, docs := job.docs }]).filterMap id).flatMap
            GeneratedFile.docs = r.generated.flatMap GeneratedFile.docs ++ job.docs := by
      split
      case isTrue hempty => simp [generated, List.isEmpty_iff.mp hempty]
      case isFalse => simp [generated]
    have hbefore := hjobs.flatMap_right FileJob.docs
    have hafter : (r.pool.set w .idle).jobs.flatMap FileJob.docs ~ others.flatMap FileJob.docs :=
      (hjobs' r.pool.queue .idle).flatMap_right FileJob.docs
    have hsame := h.docs
    rw [generated, hpublished]
    rw [List.perm_iff_count] at hbefore hafter hsame ⊢
    intro a
    have h1 := hbefore a
    have h2 := hafter a
    have h3 := hsame a
    simp only [Slot.job?, Option.toList_some, List.flatMap_append, List.flatMap_cons,
      List.flatMap_nil, List.append_nil, List.count_append] at h1 h2 h3 ⊢
    omega
  case dropped => exact h.dropped
  case ended => exact fun hc => absurd hc (by simp [hopen])

/-- The end of the streams comes behind all results, and only when every worker is gone. -/
theorem closes (h : Streams log r) (hopen : r.closed = false) (hdone : r.pool.done = true) :
    Streams log
      { r with files := r.files ++ [none], errors := r.errors ++ [none], closed := true } := by
  have hgenerated : (r.files ++ [none]).filterMap id = r.generated := by simp [Run.generated]
  have hfailed : (r.errors ++ [none]).filterMap id = r.failed := by simp [Run.failed]
  -- both streams get their sentinel, and the conjuncts that count entries pass over it
  constructor
  case files =>
    show r.files ++ [none] = ((r.files ++ [none]).filterMap id).map some ++ [none]
    rw [hgenerated, ← h.files_of_open hopen]
  case errors =>
    show r.errors ++ [none] = ((r.errors ++ [none]).filterMap id).map some ++ [none]
    rw [hfailed, ← h.errors_of_open hopen]
  case failed => exact hfailed.trans h.failed
  case docs =>
    show ((r.files ++ [none]).filterMap id).flatMap GeneratedFile.docs ++ _ ~ _
    rw [hgenerated]
    exact h.docs
  case dropped => exact h.dropped
  case ended => exact fun _ => hdone

/-- **A turn keeps the streams.** -/
theorem turn {e : Option Event} (h : Streams log r) (ht : Turn g r e r') :
    Streams (log ++ e.toList) r' := by
  -- one case for each move; only a worker that settles or drops a symbol touches what the streams hold
  cases ht with
  | stay => simpa using h
  | opens w path inputs rest idle =>
    exact h.worker idle (by simp) rfl rfl rfl id (by simp) rfl (by simp)
  | leaves w left idle => exact h.worker idle (by simp) rfl rfl rfl id (by simp) rfl (by simp)
  | shuts w job busy => simpa using h.shuts busy
  | begins w s job input rest busy =>
    exact h.worker busy (by simp) rfl rfl rfl id (by simp [setJob]) (by simp [Slot.job?]) (by simp)
  | retires w s job left busy =>
    exact h.worker busy (by simp) rfl rfl rfl id (by simp [setJob]) (by simp [Slot.job?]) (by simp)
  | advances w s job symbol next r' busy slot same pool keeps errors =>
    exact h.worker busy (by simp) pool keeps.files keeps.closed keeps.cancelled (by simp [errors])
      (by simp [Slot.job?]) (by simp)
  | settles w s job symbol o r' busy slot about pool keeps errors =>
    refine h.worker busy (by simp) pool keeps.files keeps.closed keeps.cancelled ?_ ?_ (by simp)
    · rw [errors]
      -- an outcome adds to the failures exactly when it carries an error, and to the docs when it carries a text
      cases he : o.error? <;> simp [he]
    · cases hd : o.doc? <;> simp [Slot.job?, hd]
  | drops w s job symbol r' busy slot cancelled pool keeps errors =>
    exact h.worker busy (by simp) pool keeps.files keeps.closed keeps.cancelled (by simp [errors])
      (by simp [Slot.job?]) (fun _ => cancelled)
  | cancels =>
    rw [Option.toList_none, List.append_nil]
    exact ⟨h.files, h.errors, h.failed, h.docs, fun _ => rfl, h.ended⟩
  | closes running done =>
    rw [Option.toList_none, List.append_nil]
    exact h.closes running done

end Streams

/-- A run keeps its streams in order, whatever the order of its moves. -/
theorem streams_of_run (g : Generator) (service : Service σ) (files : List (String × List Input))
    (state : σ) (moves : List Move) :
    Streams ((start g files state).events g service moves)
      ((start g files state).run g service moves) :=
  history_induction Streams (fun h ht => h.turn ht) (streams_start g files state) moves

/-- A turn of a run whose streams are closed, and whose workers are all gone, leaves the streams as
    they are. -/
theorem Turn.rests {r r' : Run σ} {e : Option Event} (ht : Turn g r e r')
    (hclosed : r.closed = true) (hdone : r.pool.done = true) :
    r'.closed = true ∧ r'.pool.done = true ∧ r'.files = r.files ∧ r'.errors = r.errors := by
  -- every move of a worker needs a slot that is not gone, and a pool that is done has none
  have hgone : ∀ {w : Nat} {slot : Slot FileJob}, r.pool.slots[w]? = some slot → slot ≠ .gone →
      False := by
    intro w slot hslot hstays
    simp [Pool.not_done hslot hstays] at hdone
  cases ht with
  | stay => exact ⟨hclosed, hdone, rfl, rfl⟩
  | opens w path inputs rest idle => exact (hgone idle (by simp)).elim
  | leaves w left idle => exact (hgone idle (by simp)).elim
  | shuts w job busy => exact (hgone busy (by simp)).elim
  | begins w s job input rest busy => exact (hgone busy (by simp)).elim
  | retires w s job left busy => exact (hgone busy (by simp)).elim
  | advances w s job symbol next r' busy => exact (hgone busy (by simp)).elim
  | settles w s job symbol o r' busy => exact (hgone busy (by simp)).elim
  | drops w s job symbol r' busy => exact (hgone busy (by simp)).elim
  | cancels => exact ⟨hclosed, hdone, rfl, rfl⟩
  | closes running => simp [hclosed] at running

/-- Nothing is put on the streams behind their end, whatever moves follow. -/
theorem streams_of_closed {r : Run σ} (hclosed : r.closed = true) (hdone : r.pool.done = true)
    (moves : List Move) :
    (r.run g service moves).files = r.files ∧ (r.run g service moves).errors = r.errors := by
  have hrun : (r.run g service moves).closed = true ∧ (r.run g service moves).pool.done = true ∧
      (r.run g service moves).files = r.files ∧ (r.run g service moves).errors = r.errors := by
    refine history_induction (fun _ r' => r'.closed = true ∧ r'.pool.done = true ∧
      r'.files = r.files ∧ r'.errors = r.errors) ?_ ⟨hclosed, hdone, rfl, rfl⟩ moves
    rintro log r₁ e r₂ ⟨hc, hd, hfiles, herrors⟩ ht
    obtain ⟨hc', hd', hfiles', herrors'⟩ := ht.rests hc hd
    exact ⟨hc', hd', hfiles'.trans hfiles, herrors'.trans herrors⟩
  exact hrun.2.2

/-- **Cancelling a run is safe at every moment.**  In every state that a run can come to:

    * once it is cancelled, no further file is opened and no further symbol is begun;
    * every symbol that was begun has one outcome, or was dropped, or is under way;
    * symbols are dropped only when the run is cancelled, and are no errors: these are the outcomes
      that failed, and the documentation is that of the other outcomes;
    * each stream has its end once and behind everything that was put on it, so that a consumer who
      reads up to the end has all of it;
    * when the run is cancelled, or its service answers every question, the end does come: after as
      many rounds of turns as there is left to do. -/
theorem cancellation_is_safe (g : Generator) (service : Service σ)
    (files : List (String × List Input)) (state : σ) (moves : List Move) :
    let r := (start g files state).run g service moves
    let log := (start g files state).events g service moves
    (r.cancelled = true → ∀ later,
      (r.events g service later).files = [] ∧ (r.events g service later).begun = [] ∧
      (r.run g service later).started = r.started ∧
      (r.run g service later).dispatched = r.dispatched) ∧
    log.begun ~ log.outcomes.map Outcome.symbol ++ log.dropped ++ r.underWay ∧
    (log.dropped ≠ [] → r.cancelled = true) ∧
    r.failed = log.outcomes.filterMap Outcome.error? ∧
    r.generated.flatMap GeneratedFile.docs ++ r.pool.jobs.flatMap FileJob.docs
      ~ log.outcomes.filterMap Outcome.doc? ∧
    r.files = r.generated.map some ++ (if r.closed then [none] else []) ∧
    r.errors = r.failed.map some ++ (if r.closed then [none] else []) ∧
    (r.closed = true →
      r.pool.jobs = [] ∧ r.underWay = [] ∧
      drained r.files = some r.generated ∧ drained r.errors = some r.failed ∧
      ∀ later, (r.run g service later).files = r.files ∧
        (r.run g service later).errors = r.errors) ∧
    (r.cancelled = true ∨ (∀ c s, (service.ask c s).1.answer ≠ .never) →
      (r.driveFrom g service r.work).closed = true) := by
  intro r log
  have h : Streams log r := streams_of_run g service files state moves
  refine ⟨?_, begun_perm g service files state moves, h.dropped, h.failed, h.docs, h.files,
    h.errors, ?_, ?_⟩
  -- a cancelled run is quiet whatever comes later, so no state of the streams is needed here
  · intro hcancelled later
    obtain ⟨hfiles, hbegun, -, hstarted, hdispatched⟩ := quiet_of_cancelled hcancelled later
    exact ⟨hfiles, hbegun, hstarted, hdispatched⟩
  · intro hclosed
    have hdone := h.ended hclosed
    have hjobs : r.pool.jobs = [] := Pool.jobs_of_done hdone
    -- once closed, both readers stop at the sentinel, which is the last entry of its stream
    refine ⟨hjobs, by simp [underWay, hjobs], ?_, ?_, streams_of_closed hclosed hdone⟩
    · rw [h.files, ending, if_pos hclosed]
      exact drained_append r.generated []
    · rw [h.errors, ending, if_pos hclosed]
      exact drained_append r.failed []
  · intro halive
    -- a run that is not cancelled ends too when the service answers: nothing is left waiting forever
    refine driveFrom_closed (halive.imp_right fun hservice => ⟨hservice, ?_⟩) (Nat.le_refl _)
    exact answered_of_run hservice (every_start g files state) moves

/-- A run that is cancelled while one symbol is answered, another waits in vain and a third was not
    begun: the first is settled, the second dropped, and the streams are closed. -/
theorem cancellation_is_safe_of_three_symbols :
    let service : Service Unit :=
      ⟨fun c _ => (⟨false, if c.input.identifier = "func:F" then .text "F does." else .never⟩, ())⟩
    let files : List (String × List Input) :=
      [("a.go", ["func:F", "func:G", "func:H"].map fun name => ⟨[], "go", name, "a.go", ""⟩)]
    let moves := [Move.file 0, .symbol 0 0, .symbol 0 1, .symbol 0 0, .symbol 0 1, .symbol 0 0,
      .symbol 0 1, .cancel, .answer 0 0, .symbol 0 0, .abandon 0 1, .symbol 0 1, .file 0, .file 0,
      .close]
    let r := (start {} files ()).run {} service moves
    let log := (start {} files ()).events {} service moves
    r.cancelled = true ∧ r.closed = true ∧ log.begun.length = 2 ∧ log.dropped.length = 1 ∧
      drained r.files = some r.generated ∧ r.generated.length = 1 ∧
      (∀ later, (r.events {} service later).begun = []) ∧
      (r.driveFrom {} service r.work).closed = true := by
  intro service files moves r log
  obtain ⟨hquiet, -, -, -, -, -, -, hclosed, hends⟩ :=
    cancellation_is_safe {} service files () moves
  have hcancelled : r.cancelled = true := by decide +kernel
  have hend : r.closed = true := by decide +kernel
  exact ⟨hcancelled, hend, by decide +kernel, by decide +kernel, (hclosed hend).2.2.1,
    by decide +kernel, fun later => (hquiet hcancelled later).2.1, hends (.inl hcancelled)⟩

end Run

end Docsmith
