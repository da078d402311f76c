import Docsmith.Proofs.Generate.Cancellation
import Docsmith.Proofs.Minify.Cache

namespace Docsmith

open List

/-!
# The outcomes of a run are determined by its symbols

When a service answers by what it is asked alone, what generating a symbol comes to does not depend
on when its turn is: neither what other workers did before nor what the minifiers remember of them
shows.  A run that is neither limited nor cancelled then has the same outcomes in every schedule,
though in another order.

* `Service.Replies`: a service that answers by what it is asked.
* `Generator.verdict`: what generating a symbol comes to.
* `Run.Faithful`: the invariant, `Run.Faithful.move`: a move keeps it, `Run.faithful_of_run`: so
  does a run.
* `Run.outcomes_perm_expected`, `Run.results_perm_expected`: the outcomes of a run that has ended.
-/

/-! ### Services that answer by what they are asked -/

/-- The answer that gives a text, or fails. -/
def Answer.ofReply : Except ServiceFault String → Answer
  | .ok s => .text s
  | .error f => .fault f

theorem Answer.ofReply_ne_never (reply : Except ServiceFault String) : ofReply reply ≠ .never := by
  cases reply with
  | ok s => exact fun h => by cases h
  | error f => exact fun h => by cases h

/-- The service answers every question, cancels nothing, and what it answers depends on the context
    alone. -/
def Service.Replies {σ : Type} (service : Service σ)
    (reply : Context → Except ServiceFault String) : Prop :=
  ∀ c state, (service.ask c state).1 = ⟨false, .ofReply (reply c)⟩

/-- What generating the documentation of a symbol comes to when nothing is remembered. -/
def Generator.verdict (g : Generator) (reply : Context → Except ServiceFault String)
    (input : Input) : Except Cause String :=
  match (g.context [] input).result with
  | .error f => .error (.source f)
  | .ok c =>
    match reply c with
    | .ok text => .ok (g.finish text)
    | .error f => .error (.service f)

/-- What a worker is busy with is on the way to the verdict on its symbol. -/
def SymbolJob.OnWay (g : Generator) (reply : Context → Except ServiceFault String) :
    SymbolJob → Prop
  | building _ => True
  | asking c => (g.context [] c.input).result = .ok c
  | waiting input answer =>
    ∃ c, (g.context [] input).result = .ok c ∧ answer = .ofReply (reply c)

namespace Run

variable {σ : Type} {g : Generator} {service : Service σ}
  {reply : Context → Except ServiceFault String}

/-! ### The invariant -/

/-- What is remembered is sound, workers are on the way to the verdicts on their symbols, and the
    outcomes are the verdicts. -/
structure Faithful (g : Generator) (reply : Context → Except ServiceFault String)
    (log : List Outcome) (r : Run σ) : Prop where
  caches : r.caches.Sound g
  jobs : Every (SymbolJob.OnWay g reply) r
  outcomes : ∀ o ∈ log, o.result = g.verdict reply o.input

theorem faithful_start (g : Generator) (reply : Context → Except ServiceFault String)
    (files : List (String × List Input)) (state : σ) :
    Faithful g reply [] (start g files state) where
  caches := StageCaches.sound_nil g
  jobs := every_start g files state
  outcomes := by
    intro o ho
    cases ho

/-- The caches of a run stay sound, since they only come to know what contexts were built with. -/
theorem sound_of_transition (hnamed : g.languages.Named) {r r' : Run σ} {o : Option Outcome}
    (ht : Transition g service r o r') (h : r.caches.Sound g) : r'.caches.Sound g := by
  cases ht with
  | contextFails w s job input => exact (Generator.context_of_sound hnamed h input).2
  | contextBuilt w s job input => exact (Generator.context_of_sound hnamed h input).2
  | _ => exact h

/-- The outcome that a move settles is the verdict on its symbol. -/
theorem Faithful.settles (hnamed : g.languages.Named) {log : List Outcome} {r r' : Run σ}
    {o : Outcome} (h : Faithful g reply log r) (ht : Transition g service r (some o) r') :
    o.result = g.verdict reply o.input := by
  have hwaiting : ∀ {w s : Nat} {job : FileJob} {input : Input} {answer : Answer},
      r.pool.slots[w]? = some (.busy job) →
      job.pool.slots[s]? = some (.busy (.waiting input answer)) →
      ∃ c, (g.context [] input).result = .ok c ∧ answer = .ofReply (reply c) :=
    fun hbusy hslot => h.jobs _ (Pool.mem_jobs hbusy) _ (Pool.mem_jobs hslot)
  cases ht with
  | contextFails w s job input f busy building result =>
    -- the context fails in the same way when nothing is remembered
    have hcontext := (Generator.context_of_sound hnamed h.caches input).1
    show .error (.source f) = g.verdict reply input
    rw [Generator.verdict, ← hcontext, result]
  | returns w s job input text busy waiting =>
    obtain ⟨c, hc, hanswer⟩ := hwaiting busy waiting
    show .ok (g.finish text) = g.verdict reply input
    cases hreply : reply c with
    | error f => rw [hreply] at hanswer; cases hanswer
    | ok t =>
      rw [hreply] at hanswer
      cases hanswer
      simp only [Generator.verdict, hc, hreply]
  | faults w s job input f busy waiting =>
    obtain ⟨c, hc, hanswer⟩ := hwaiting busy waiting
    show .error (.service f) = g.verdict reply input
    cases hreply : reply c with
    | ok t => rw [hreply] at hanswer; cases hanswer
    | error e =>
      rw [hreply] at hanswer
      cases hanswer
      simp only [Generator.verdict, hc, hreply]

/-- **A move keeps to the verdicts.** -/
theorem Faithful.move (hnamed : g.languages.Named) (hservice : service.Replies reply)
    {log : List Outcome} {r r' : Run σ} {o : Option Outcome} (h : Faithful g reply log r)
    (ht : Transition g service r o r') : Faithful g reply (log ++ o.toList) r' := by
  constructor
  case caches => exact sound_of_transition hnamed ht h.caches
  case jobs =>
    refine h.jobs.move ht (fun _ => trivial) ?_ ?_
    · intro input c hresult
      -- a context built with the caches of this state is the one built with none: the caches are sound
      have hinput : c.input = input := Generator.context_input hresult
      show (g.context [] c.input).result = .ok c
      rw [hinput, ← (Generator.context_of_sound hnamed h.caches input).1, hresult]
    · intro c hc
      exact ⟨c, hc, by rw [hservice c r.service]⟩
  case outcomes =>
    intro o' ho'
    rcases List.mem_append.mp ho' with hold | hnew
    · exact h.outcomes o' hold
    -- only the outcome of this very move is new
    · have heq : o = some o' := by simpa using hnew
      subst heq
      exact h.settles hnamed ht

/-- A run keeps to the verdicts, whatever the order of its moves. -/
theorem faithful_of_run (hnamed : g.languages.Named) (hservice : service.Replies reply)
    {log : List Outcome} {r : Run σ} (h : Faithful g reply log r) (moves : List Move) :
    Faithful g reply (log ++ r.outcomes g service moves) (r.run g service moves) := by
  induction moves generalizing r log with
  | nil =>
    rw [outcomes, List.append_nil]
    exact h
  | cons m moves ih =>
    rw [outcomes, ← List.append_assoc]
    exact ih (h.move hnamed hservice (step_transition g service r m))

/-! ### The outcomes of a run -/

/-- The outcomes that the symbols of some files must have. -/
def expected (g : Generator) (reply : Context → Except ServiceFault String)
    (files : List (String × List Input)) : List Outcome :=
  (files.flatMap listed).map fun (path, input) => ⟨path, input, g.verdict reply input⟩

variable {files : List (String × List Input)} {state : σ} {moves : List Move}

/-- The documentation that must come out: that of a listed symbol, with the text of its verdict. -/
theorem mem_docs_expected {d : Documentation}
    (h : d ∈ (expected g reply files).filterMap Outcome.doc?) :
    (∃ x ∈ files.flatMap listed, x.2 = d.input) ∧ g.verdict reply d.input = .ok d.text := by
  obtain ⟨o, ho, hdoc⟩ := List.mem_filterMap.mp h
  obtain ⟨x, hx, rfl⟩ := List.mem_map.mp ho
  unfold Outcome.doc? at hdoc
  split at hdoc
  case h_1 text hresult =>
    cases hdoc
    exact ⟨⟨x, hx, rfl⟩, hresult⟩
  case h_2 => cases hdoc

/-- **The outcomes of a run are the verdicts on its symbols**, in some order. -/
theorem outcomes_perm_expected (hnamed : g.languages.Named) (hservice : service.Replies reply)
    (hdict : (files.map Prod.fst).Nodup) (hlimits : Unlimited g)
    (hlive : ((start g files state).run g service moves).cancelled = false)
    (hclosed : ((start g files state).run g service moves).closed = true) :
    (start g files state).outcomes g service moves ~ expected g reply files := by
  -- the books say which symbols have outcomes, and the verdicts say which outcomes these are
  have hfaithful := faithful_of_run hnamed hservice (faithful_start g reply files state) moves
  obtain ⟨closed, hbooks⟩ := books_of_run hdict hlimits (books_start g files state) moves hlive
  obtain ⟨hqueue, hjobs⟩ := hbooks.staffed.done (hbooks.ended hclosed)
  rw [List.nil_append] at hfaithful hbooks
  generalize (start g files state).outcomes g service moves = log at hfaithful hbooks ⊢
  have hsymbols : log.map Outcome.symbol ~ files.flatMap listed := by
    simpa [hqueue, hjobs] using hbooks.symbols
  -- an outcome is its symbol with the verdict on it
  have hlog : (log.map Outcome.symbol).map
      (fun (path, input) => (⟨path, input, g.verdict reply input⟩ : Outcome)) = log := by
    rw [List.map_map]
    refine (List.map_congr_left ?_).trans (List.map_id log)
    intro o ho
    show (⟨o.path, o.input, g.verdict reply o.input⟩ : Outcome) = o
    rw [← hfaithful.outcomes o ho]
  rw [← hlog]
  exact hsymbols.map _

/-- What is on the streams of a run that has ended: the errors and the documentation that its
    symbols must have, in some order. -/
theorem results_perm_expected (hnamed : g.languages.Named) (hservice : service.Replies reply)
    (hdict : (files.map Prod.fst).Nodup) (hlimits : Unlimited g)
    (hlive : ((start g files state).run g service moves).cancelled = false)
    (hclosed : ((start g files state).run g service moves).closed = true) :
    let final := (start g files state).run g service moves
    final.failed ~ (expected g reply files).filterMap Outcome.error? ∧
      final.generated.flatMap GeneratedFile.docs
        ~ (expected g reply files).filterMap Outcome.doc? := by
  intro final
  have hperm := outcomes_perm_expected hnamed hservice hdict hlimits hlive hclosed
  have hstreams := streams_of_run g service files state moves
  -- no job is left in a closed run, so every text is in the published files
  have hjobs : final.pool.jobs = [] := Pool.jobs_of_done (hstreams.ended hclosed)
  constructor
  · rw [hstreams.failed, outcomes_events]
    exact hperm.filterMap _
  · have hdocs := hstreams.docs
    rw [outcomes_events, hjobs, List.flatMap_nil, List.append_nil] at hdocs
    exact hdocs.trans (hperm.filterMap _)

/-! ### Runs that nobody cancels -/

/-- A move that does not cancel the run leaves it going on, if the service does not cancel it. -/
theorem step_cancelled (hservice : service.Replies reply) (r : Run σ) {m : Move}
    (hm : m ≠ .cancel) : (r.step g service m).cancelled = r.cancelled := by
  -- no step but `cancel` writes the flag, and the service does not raise it either
  cases m with
  | file w =>
    show (r.stepFile g w).cancelled = r.cancelled
    unfold stepFile
    split
    · split <;> rfl
    · split <;> rfl
    · rfl
  | symbol w s =>
    show (r.stepSymbol g service w s).cancelled = r.cancelled
    unfold stepSymbol
    split
    · rfl
    · split
      · simp only [takeSymbol]
        split <;> rfl
      · simp only [buildContext]
        split <;> rfl
      · simp [askService, setJob, hservice _ r.service]
      · rfl
  | answer w s =>
    show (r.stepAnswer g w s).cancelled = r.cancelled
    unfold stepAnswer
    split
    · rfl
    · split <;> rfl
  | abandon w s =>
    show (r.stepAbandon w s).cancelled = r.cancelled
    unfold stepAbandon
    split
    · rfl
    · split
      · rfl
      · split <;> rfl
  | cancel => exact absurd rfl hm
  | close =>
    show r.stepClose.cancelled = r.cancelled
    unfold stepClose
    split <;> rfl

/-- A run that nobody cancels goes on. -/
theorem live_of_run (hservice : service.Replies reply) {r : Run σ} (hlive : r.cancelled = false)
    {moves : List Move} (hmoves : .cancel ∉ moves) : (r.run g service moves).cancelled = false := by
  induction moves generalizing r with
  | nil => exact hlive
  | cons m moves ih =>
    have hm : m ≠ .cancel := fun heq => hmoves (heq ▸ List.mem_cons_self)
    refine ih ?_ fun hmem => hmoves (List.mem_cons_of_mem _ hmem)
    rw [step_cancelled hservice r hm]
    exact hlive

/-- A round cancels nothing. -/
theorem cancel_not_mem_round (r : Run σ) : .cancel ∉ r.round := by
  have hsymbol : ∀ (w s : Nat) (slots : List (Slot SymbolJob)), .cancel ∉ symbolTurn w slots s := by
    intro w s slots
    unfold symbolTurn
    split <;> simp
  have hfile : ∀ w, .cancel ∉ r.fileTurn w := by
    intro w
    unfold fileTurn
    split
    · simp [hsymbol]
    · simp
  simp [round, hfile]

/-- A run that is driven makes some moves, and cancels nothing. -/
theorem driveFrom_eq_run (g : Generator) (service : Service σ) (rounds : Nat) (r : Run σ) :
    ∃ moves, .cancel ∉ moves ∧ r.driveFrom g service rounds = r.run g service moves := by
  induction rounds generalizing r with
  | zero => exact ⟨[], by simp, rfl⟩
  | succ rounds ih =>
    unfold driveFrom
    split
    case isTrue => exact ⟨[], by simp, rfl⟩
    case isFalse =>
      obtain ⟨moves, hmoves, heq⟩ := ih (r.run g service r.round)
      refine ⟨r.round ++ moves, ?_, ?_⟩
      · simp [cancel_not_mem_round, hmoves]
      · rw [heq, run, run, run, List.foldl_append]

end Run

end Docsmith
