import Docsmith.Proofs.Generate.History
import Mathlib.Algebra.Order.BigOperators.Group.List
import Mathlib.Algebra.Order.Group.Nat

namespace Docsmith

/-!
# The concurrency of a run is bounded

A symbol that is under way has a worker, and that worker belongs to the pool of a file which a
worker for files has open.  No turn adds a worker to a pool, so that the two worker counts bound
what is under way at every moment.

* `Pool.length_jobs_le`: a pool has no more jobs than workers.
* `Run.Sized`: the invariant, and `Run.Turn.sized`: a turn keeps it.
* `Run.concurrency_is_bounded`: what is open and under way at every moment.
-/

namespace Pool

variable {α β : Type}

/-- A pool starts with no more workers than asked for. -/
theorem length_slots_start (size : Nat) (items : List α) :
    (start size items : Pool α β).slots.length ≤ size := by
  simp only [start, List.length_replicate]
  omega

/-- A worker that changes its state is still one worker. -/
@[simp] theorem length_slots_set (p : Pool α β) (w : Nat) (s : Slot β) :
    (p.set w s).slots.length = p.slots.length := List.length_set

/-- Every job has a worker. -/
theorem length_jobs_le (p : Pool α β) : p.jobs.length ≤ p.slots.length :=
  List.length_filterMap_le Slot.job? p.slots

end Pool

namespace Run

variable {σ : Type} {g : Generator}

/-- The pools of a run have no more workers than the counts that are asked for. -/
structure Sized (g : Generator) (r : Run σ) : Prop where
  files : r.pool.slots.length ≤ g.fileWorkerCount
  symbols : ∀ job ∈ r.pool.jobs, job.pool.slots.length ≤ g.symbolWorkerCount

theorem sized_start (g : Generator) (files : List (String × List Input)) (state : σ) :
    Sized g (start g files state) where
  files := Pool.length_slots_start _ files
  symbols := by
    have hjobs : (start g files state).pool.jobs = [] := Pool.jobs_start _ files
    rw [hjobs]
    intro job hjob
    cases hjob

/-- What one worker for files does keeps the sizes, if the pool of the file that it has open then
    keeps its own. -/
theorem Sized.set {r r' : Run σ} {w : Nat} {new : Slot FileJob}
    {left : List (String × List Input)} (h : Sized g r)
    (hpool : r'.pool = { r.pool with queue := left }.set w new)
    (hnew : ∀ job ∈ new.job?, job.pool.slots.length ≤ g.symbolWorkerCount) : Sized g r' := by
  constructor
  case files =>
    rw [hpool, Pool.length_slots_set]
    exact h.files
  case symbols =>
    intro job hjob
    rw [hpool] at hjob
    exact (Pool.mem_jobs_set hjob).elim (hnew job) (h.symbols job)

/-- What a worker for symbols does keeps the sizes, since the pool of its file keeps its workers. -/
theorem Sized.setJob {r r' : Run σ} {w : Nat} {job job' : FileJob} (h : Sized g r)
    (hbusy : r.pool.slots[w]? = some (.busy job)) (hpool : r'.pool = r.pool.set w (.busy job'))
    (hsize : job'.pool.slots.length = job.pool.slots.length) : Sized g r' := by
  refine h.set hpool ?_
  intro other hother
  have heq : job' = other := by simpa [Slot.job?] using hother
  rw [← heq, hsize]
  exact h.symbols job (Pool.mem_jobs hbusy)

/-- **A turn keeps the sizes of all pools.** -/
theorem Turn.sized {r r' : Run σ} {e : Option Event} (ht : Turn g r e r') (h : Sized g r) :
    Sized g r' := by
  cases ht with
  | stay => exact h
  | opens w path inputs =>
    -- the only turn that brings a new pool
    refine h.set rfl ?_
    intro job hjob
    have heq : openFile g path inputs = job := by simpa [Slot.job?] using hjob
    rw [← heq]
    exact Pool.length_slots_start _ inputs
  | leaves => exact h.set rfl (by simp [Slot.job?])
  | shuts => exact h.set rfl (by simp [Slot.job?])
  | begins w s job input rest busy => exact h.setJob busy rfl (by simp)
  | retires w s job left busy => exact h.setJob busy rfl (by simp)
  | advances w s job symbol next r' busy slot same pool => exact h.setJob busy pool (by simp)
  | settles w s job symbol o r' busy slot about pool => exact h.setJob busy pool (by simp)
  | drops w s job symbol r' busy slot cancelled pool => exact h.setJob busy pool (by simp)
  | cancels => exact ⟨h.files, h.symbols⟩
  | closes => exact ⟨h.files, h.symbols⟩

theorem sized_of_run (g : Generator) (service : Service σ) (files : List (String × List Input))
    (state : σ) (moves : List Move) : Sized g ((start g files state).run g service moves) :=
  history_induction (fun _ r => Sized g r) (fun h ht => ht.sized h) (sized_start g files state)
    moves

/-- No more symbols of an open file are under way than its pool has workers. -/
theorem Sized.length_jobUnderWay_le {r : Run σ} (h : Sized g r) {job : FileJob}
    (hjob : job ∈ r.pool.jobs) : job.underWay.length ≤ g.symbolWorkerCount := by
  rw [FileJob.underWay, List.length_map]
  exact (Pool.length_jobs_le job.pool).trans (h.symbols job hjob)

theorem Sized.length_jobs_le {r : Run σ} (h : Sized g r) : r.pool.jobs.length ≤ g.fileWorkerCount :=
  (Pool.length_jobs_le r.pool).trans h.files

/-- What is under way are the symbols of the open files, each with its share at most. -/
theorem Sized.length_underWay_le {r : Run σ} (h : Sized g r) :
    r.underWay.length ≤ g.fileWorkerCount * g.symbolWorkerCount := by
  have hshares : ∀ n ∈ r.pool.jobs.map (fun job => (job.underWay.map (job.path, ·)).length),
      n ≤ g.symbolWorkerCount := by
    intro n hn
    obtain ⟨job, hjob, rfl⟩ := List.mem_map.mp hn
    rw [List.length_map]
    exact h.length_jobUnderWay_le hjob
  calc r.underWay.length
      = (r.pool.jobs.map fun job => (job.underWay.map (job.path, ·)).length).sum :=
        List.length_flatMap
    _ ≤ r.pool.jobs.length * g.symbolWorkerCount := by
        simpa using List.sum_le_card_nsmul _ _ hshares
    _ ≤ g.fileWorkerCount * g.symbolWorkerCount := Nat.mul_le_mul_right _ h.length_jobs_le

/-- A worker count as it is asked for: at least one, and the usual one when zero is asked for. -/
theorem workerCount_eq (g : Generator) (asked : Int) (cap : Nat) :
    (g.workerCount asked cap : Int)
      = max 1 (if asked = 0 then (g.usualWorkers cap : Int) else asked) := by
  have husual : 1 ≤ g.usualWorkers cap := Nat.le_max_left _ _
  unfold Generator.workerCount
  by_cases hzero : asked = 0
  · simp only [hzero, beq_self_eq_true, if_true]
    omega
  · rw [if_neg (by simpa using hzero), if_neg hzero]
    omega

/-- **Concurrency is bounded.**  At every moment of a run, with any limits, cancelled or not, the
    symbols that were begun and neither settled nor dropped are those under way.  There are no more
    of them than the product of the two worker counts, no more in one open file than there are
    workers for symbols, and no more open files than there are workers for files. -/
theorem concurrency_is_bounded (g : Generator) (service : Service σ)
    (files : List (String × List Input)) (state : σ) (moves : List Move) :
    let final := (start g files state).run g service moves
    let log := (start g files state).events g service moves
    let fileWorkers : Int :=
      max 1 (if g.fileWorkers = 0 then (g.usualWorkers 4 : Int) else g.fileWorkers)
    let symbolWorkers : Int :=
      max 1 (if g.symbolWorkers = 0 then (g.usualWorkers 2 : Int) else g.symbolWorkers)
    log.begun.Perm (log.outcomes.map Outcome.symbol ++ log.dropped ++ final.underWay) ∧
    (final.underWay.length : Int) ≤ fileWorkers * symbolWorkers ∧
    (∀ job ∈ final.pool.jobs, (job.underWay.length : Int) ≤ symbolWorkers) ∧
    (final.pool.jobs.length : Int) ≤ fileWorkers := by
  intro final log fileWorkers symbolWorkers
  have h : Sized g final := sized_of_run g service files state moves
  -- the bounds are kept in naturals; the settings are integers, hence the casts below
  have hfile : (g.fileWorkerCount : Int) = fileWorkers := workerCount_eq g g.fileWorkers 4
  have hsymbol : (g.symbolWorkerCount : Int) = symbolWorkers := workerCount_eq g g.symbolWorkers 2
  refine ⟨begun_perm g service files state moves, ?_, ?_, ?_⟩
  · rw [← hfile, ← hsymbol]
    exact_mod_cast h.length_underWay_le
  · intro job hjob
    rw [← hsymbol]
    exact_mod_cast h.length_jobUnderWay_le hjob
  · rw [← hfile]
    exact_mod_cast h.length_jobs_le

/-- Two workers for files and two for the symbols of each: all bounds are met at once, and a third
    symbol of a file waits. -/
theorem concurrency_is_bounded_of_two_files :
    let g : Generator := { fileWorkers := 2, symbolWorkers := 2 }
    let symbols file := ["func:F", "func:G", "func:H"].map fun name =>
      (⟨[], "go", name, file, ""⟩ : Input)
    let files := ["a.go", "b.go", "c.go"].map fun file => (file, symbols file)
    let moves := [Move.file 0, .file 1, .symbol 0 0, .symbol 1 0, .symbol 0 1, .symbol 1 1]
    let final := (start g files ()).run g knowsOnlyF moves
    final.underWay.length = 4 ∧ final.pool.jobs.length = 2 ∧
      ∃ job ∈ final.pool.jobs, job.underWay.length = 2 ∧ (job.underWay.length : Int) ≤ max 1 2 := by
  intro g symbols files moves final
  have hfull : 2 ∈ final.pool.jobs.map fun job => job.underWay.length := by decide +kernel
  obtain ⟨job, hjob, htwo⟩ := List.mem_map.mp hfull
  have hbound := (concurrency_is_bounded g knowsOnlyF files () moves).2.2.1
  exact ⟨by decide +kernel, by decide +kernel, job, hjob, htwo, hbound job hjob⟩

end Run

end Docsmith
