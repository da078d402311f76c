import Docsmith.Proofs.Generate.Transition
import Mathlib.Data.List.Nodup

namespace Docsmith

open List

/-!
# Every symbol of a run has one outcome

A run keeps books: each symbol that was listed is either settled, or pending with a worker, or it
waits in a queue, and what was settled is found in the two streams.  The books balance after every
move of a run that is neither limited nor cancelled, so that nothing is open in them when the streams
are closed.

* `FileJob.pending`, `listed`: the symbols that an open file still owes, and those of a listed one.
* `Pool.Staffed`: no worker has left while something waits.
* `docsOf`: the documentation that came of the symbols of a file.
* `Run.Books`: the invariant, `Run.Books.move`: a move keeps it, `Run.books_of_run`: so does a run.
* `Run.settles_every_symbol`: what is in the streams when they are closed.
-/

/-! ### What is owed -/

/-- The symbols of an open file that have no outcome yet. -/
def FileJob.pending (job : FileJob) : List Input :=
  job.pool.jobs.map SymbolJob.input ++ job.pool.queue

/-- The symbols that a file lists, each with the path of the file. -/
def listed (item : String × List Input) : List (String × Input) :=
  item.2.map (item.1, ·)

/-- The documentation that came of the symbols of a file, in the order of its coming. -/
def docsOf (log : List Outcome) (path : String) : List Documentation :=
  (log.filter (·.path == path)).filterMap Outcome.doc?

/-- A file without outcomes has no documentation. -/
theorem docsOf_eq_nil {log : List Outcome} {path : String} (h : ∀ o ∈ log, o.path ≠ path) :
    docsOf log path = [] := by
  have hnone : log.filter (·.path == path) = [] := by
    rw [List.filter_eq_nil_iff]
    intro o ho
    simpa using h o ho
  rw [docsOf, hnone, List.filterMap_nil]

/-- Another outcome adds to the documentation of its own file only. -/
theorem docsOf_append (log : List Outcome) (o : Option Outcome) (path : String) :
    docsOf (log ++ o.toList) path
      = docsOf log path ++ (o.toList.filter (·.path == path)).filterMap Outcome.doc? := by
  simp [docsOf, List.filter_append, List.filterMap_append]

/-- An outcome of another file leaves the documentation of a file as it is. -/
theorem docsOf_append_of_ne {log : List Outcome} {o : Option Outcome} {path : String}
    (h : ∀ x ∈ o, x.path ≠ path) : docsOf (log ++ o.toList) path = docsOf log path := by
  rw [docsOf_append]
  cases o with
  | none => simp
  | some x => simp [h x rfl]

/-! ### Pools without limits -/

/-- No worker has left, and none was missing from the beginning, while something waits. -/
def Pool.Staffed {α β : Type} (p : Pool α β) : Prop :=
  .gone ∈ p.slots ∨ p.slots = [] → p.queue = []

namespace Pool

variable {α β : Type}

/-- A pool begins with a worker if something waits. -/
theorem staffed_start {size : Nat} (hsize : 0 < size) (items : List α) :
    (start size items : Pool α β).Staffed := by
  rintro (hgone | hnone)
  · simp [start] at hgone
  · simp only [start, List.replicate_eq_nil_iff, Nat.min_eq_zero_iff] at hnone
    rcases hnone with hzero | hnil
    · omega
    · exact List.length_eq_zero_iff.mp hnil

/-- A worker that stays keeps a pool staffed. -/
theorem Staffed.set {p : Pool α β} (h : p.Staffed) {w : Nat} {s : Slot β} (hs : s ≠ .gone) :
    (p.set w s).Staffed := by
  rintro (hgone | hnone)
  · rcases List.mem_or_eq_of_mem_set hgone with hmem | heq
    · exact h (.inl hmem)
    · exact absurd heq.symm hs
  · exact h (.inr (by simpa [Pool.set] using hnone))

/-- A worker that takes an item keeps a pool staffed. -/
theorem Staffed.take {p : Pool α β} (h : p.Staffed) {x : α} {rest : List α}
    (hq : p.queue = x :: rest) (w : Nat) (job : β) :
    ({ p with queue := rest }.set w (.busy job)).Staffed := by
  rintro (hgone | hnone)
  · rcases List.mem_or_eq_of_mem_set hgone with hmem | heq
    · exact absurd (h (.inl hmem)) (by simp [hq])
    · cases heq
  · exact absurd (h (.inr (by simpa [Pool.set] using hnone))) (by simp [hq])

/-- The job of a busy worker is under way. -/
theorem mem_jobs {p : Pool α β} {w : Nat} {job : β} (h : p.slots[w]? = some (.busy job)) :
    job ∈ p.jobs :=
  List.mem_filterMap.mpr ⟨.busy job, List.mem_of_getElem? h, rfl⟩

/-- A pool with a worker that has not left is not done. -/
theorem not_done {p : Pool α β} {w : Nat} {s : Slot β} (h : p.slots[w]? = some s)
    (hs : s ≠ .gone) : p.done = false := by
  rw [done, List.all_eq_false]
  refine ⟨s, List.mem_of_getElem? h, ?_⟩
  cases s with
  | gone => exact absurd rfl hs
  | idle => simp [Slot.isGone]
  | busy job => simp [Slot.isGone]

/-- When all workers of a staffed pool are gone, nothing waits and nothing is under way. -/
theorem Staffed.done {p : Pool α β} (h : p.Staffed) (hdone : p.done = true) :
    p.queue = [] ∧ p.jobs = [] := by
  have hgone : ∀ s ∈ p.slots, s = .gone := by
    intro s hs
    have := List.all_eq_true.mp hdone s hs
    cases s <;> first | rfl | cases this
  refine ⟨h ?_, ?_⟩
  · cases hslots : p.slots with
    | nil => exact .inr rfl
    | cons s rest =>
      have hs : s = .gone := hgone s (by simp [hslots])
      exact .inl (by simp [hs])
  · rw [jobs, List.filterMap_eq_nil_iff]
    intro s hs
    rw [hgone s hs]
    rfl

/-- A pool in which nothing has begun has no jobs. -/
theorem jobs_start (size : Nat) (items : List α) : (start size items : Pool α β).jobs = [] := by
  rw [jobs, List.filterMap_eq_nil_iff]
  intro s hs
  rw [List.eq_of_mem_replicate hs]
  rfl

end Pool

/-- The context of a symbol is about that symbol. -/
theorem Generator.context_input {g : Generator} {caches : StageCaches} {input : Input} {c : Context}
    (h : (g.context caches input).result = .ok c) : c.input = input := by
  have hof : ∀ {instructions code}, contextOf input instructions code = .ok c → c.input = input := by
    intro instructions code hc
    unfold contextOf at hc
    split at hc
    · cases hc; rfl
    · cases hc
  unfold Generator.context at h
  split at h
  · cases h
  · dsimp only at h
    split at h
    · exact hof h
    · split at h
      · cases h
      · exact hof h

namespace Run

variable {σ : Type} {g : Generator} {service : Service σ} {files : List (String × List Input)}

/-! ### The books of a run -/

/-- The run admits whatever comes: none of its three limits is set. -/
def Unlimited (g : Generator) : Prop := g.limit = 0 ∧ g.perFileLimit = 0 ∧ g.fileLimit = 0

theorem admitsFile_of_unlimited (h : Unlimited g) (r : Run σ) : r.admitsFile g = true := by
  simp [admitsFile, reached, h.1, h.2.2]

theorem admitsSymbol_of_unlimited (h : Unlimited g) (r : Run σ) (job : FileJob) :
    r.admitsSymbol g job = true := by
  simp [admitsSymbol, reached, h.1, h.2.1]

/-- A worker of a run that admits everything and is not cancelled leaves only when nothing waits. -/
theorem nothing_left {α : Type} {cancelled admits : Bool} {queue left : List α}
    (h : Leaves cancelled admits queue left) (hlive : cancelled = false) (hadm : admits = true) :
    queue = [] ∧ left = [] := by
  rcases h with ⟨rfl, rfl | hc⟩ | ⟨x, _, ha⟩
  · exact ⟨rfl, rfl⟩
  · rw [hlive] at hc; cases hc
  · rw [hadm] at ha; cases ha

/-- The state of the books: the symbols with an outcome in `log`, those that open files owe and those
    that wait make up the symbols of the run, the files in `closed`, the open ones and those that
    wait make up its files, and both streams hold what the outcomes say. -/
structure Books (files : List (String × List Input)) (log : List Outcome) (closed : List String)
    (r : Run σ) : Prop where
  symbols : log.map Outcome.symbol ++ r.pool.jobs.flatMap (fun job => listed (job.path, job.pending))
    ++ r.pool.queue.flatMap listed ~ files.flatMap listed
  paths : closed ++ r.pool.jobs.map FileJob.path ++ r.pool.queue.map Prod.fst ~ files.map Prod.fst
  begun : ∀ o ∈ log, o.path ∈ closed ++ r.pool.jobs.map FileJob.path
  docs : ∀ job ∈ r.pool.jobs, job.docs = docsOf log job.path
  generated : r.generated
    = (closed.map fun path => ⟨path, docsOf log path⟩).filter (!·.docs.isEmpty)
  failed : r.failed = log.filterMap Outcome.error?
  staffed : r.pool.Staffed
  jobsStaffed : ∀ job ∈ r.pool.jobs, job.pool.Staffed
  ended : r.closed = true → r.pool.done = true

/-- There is always a worker. -/
theorem workerCount_pos (g : Generator) (asked : Int) (cap : Nat) :
    0 < g.workerCount asked cap := by
  simp only [Generator.workerCount, Generator.usualWorkers]
  split <;> omega

/-- The books at the beginning: every symbol waits. -/
theorem books_start (g : Generator) (files : List (String × List Input)) (service : σ) :
    Books files [] [] (start g files service) := by
  have hjobs : (start g files service).pool.jobs = [] := Pool.jobs_start _ _
  constructor
  case symbols => rw [hjobs]; exact Perm.refl _
  case paths => rw [hjobs]; exact Perm.refl _
  case begun => intro o ho; cases ho
  case docs => rw [hjobs]; intro job hjob; cases hjob
  case generated => rfl
  case failed => rfl
  case staffed => exact Pool.staffed_start (workerCount_pos g _ _) files
  case jobsStaffed => rw [hjobs]; intro job hjob; cases hjob
  case ended => intro h; cases h

namespace Books

variable {log : List Outcome} {closed : List String} {r : Run σ}

/-- No file is listed twice in the books. -/
theorem nodup (h : Books files log closed r) (hdict : (files.map Prod.fst).Nodup) :
    (closed ++ r.pool.jobs.map FileJob.path ++ r.pool.queue.map Prod.fst).Nodup :=
  h.paths.nodup_iff.mpr hdict

/-- A file that waits has no outcome yet. -/
theorem docsOf_waiting (h : Books files log closed r) (hdict : (files.map Prod.fst).Nodup)
    {path : String} (hpath : path ∈ r.pool.queue.map Prod.fst) : docsOf log path = [] := by
  apply docsOf_eq_nil
  intro o ho heq
  have hdisjoint := (List.nodup_append.mp (h.nodup hdict)).2.2
  exact hdisjoint o.path (h.begun o ho) path hpath heq

/-- A closed file is not open. -/
theorem closed_not_open (h : Books files log closed r) (hdict : (files.map Prod.fst).Nodup)
    {job : FileJob} (hjob : job ∈ r.pool.jobs) {path : String} (hpath : path ∈ closed) :
    path ≠ job.path := by
  have hnodup := (List.nodup_append.mp (h.nodup hdict)).1
  exact (List.nodup_append.mp hnodup).2.2 path hpath job.path (List.mem_map_of_mem hjob)

/-- What a worker for symbols does keeps the books: its file owes one symbol less for each outcome,
    has its documentation, and reports its error. -/
theorem progress {r' : Run σ} {o : Option Outcome} {w : Nat} {job job' : FileJob}
    (h : Books files log closed r) (hdict : (files.map Prod.fst).Nodup)
    (hbusy : r.pool.slots[w]? = some (.busy job)) (hpool : r'.pool = r.pool.set w (.busy job'))
    (hpath : job'.path = job.path) (ho : ∀ x ∈ o, x.path = job.path)
    (hpending : o.toList.map Outcome.input ++ job'.pending ~ job.pending)
    (hdocs : job'.docs = job.docs ++ o.toList.filterMap Outcome.doc?)
    (hfailed : r'.failed = r.failed ++ o.toList.filterMap Outcome.error?)
    (hfiles : r'.files = r.files) (hclosed : r'.closed = r.closed)
    (hstaffed : job'.pool.Staffed) : Books files (log ++ o.toList) closed r' := by
  obtain ⟨before, after, hjobs, hset⟩ := Pool.jobs_set hbusy
  have hjobs' : r'.pool.jobs = before ++ [job'] ++ after := by rw [hpool]; exact hset _
  have hqueue : r'.pool.queue = r.pool.queue := by rw [hpool]; rfl
  simp only [Slot.job?, Option.toList_some] at hjobs
  have hmem : job ∈ r.pool.jobs := by rw [hjobs]; simp
  have hopen : r'.pool.jobs.map FileJob.path = r.pool.jobs.map FileJob.path := by
    rw [hjobs', hjobs]; simp [hpath]
  -- the other open files have other paths, so that the outcome says nothing of them
  have hothers : ∀ other ∈ r'.pool.jobs, other ≠ job' →
      other ∈ r.pool.jobs ∧ other.path ≠ job.path := by
    have hnodup := (List.nodup_append.mp (List.nodup_append.mp (h.nodup hdict)).1).2.1
    rw [hjobs] at hnodup
    simp only [List.map_append, List.map_cons, List.append_assoc, List.singleton_append,
      List.nodup_middle, List.nodup_cons] at hnodup
    intro other hother hne
    have hin : other ∈ before ++ after := by grind
    refine ⟨by grind, fun heq => hnodup.1 ?_⟩
    rw [← heq, ← List.map_append]
    exact List.mem_map_of_mem hin
  constructor
  case symbols =>
    have hsymbols : o.toList.map Outcome.symbol ++ listed (job'.path, job'.pending)
        ~ listed (job.path, job.pending) := by
      have hmap := hpending.map (Prod.mk job.path)
      have houtcome : o.toList.map Outcome.symbol
          = (o.toList.map Outcome.input).map (Prod.mk job.path) := by
        cases o with
        | none => rfl
        | some x => simp [Outcome.symbol, ho x rfl]
      rw [List.map_append] at hmap
      rw [houtcome, hpath]
      exact hmap
    refine Perm.trans ?_ h.symbols
    rw [hjobs', hjobs, hqueue]
    rw [List.perm_iff_count] at hsymbols ⊢
    intro a
    have hcount := hsymbols a
    simp only [List.map_append, List.flatMap_append, List.flatMap_cons, List.flatMap_nil,
      List.count_append, List.count_nil] at hcount ⊢
    omega
  case paths => rw [hopen, hqueue]; exact h.paths
  case begun =>
    rw [hopen]
    intro x hx
    rcases List.mem_append.mp hx with hold | hnew
    · exact h.begun x hold
    · rw [ho x (Option.mem_toList.mp hnew)]
      exact List.mem_append_right _ (List.mem_map_of_mem hmem)
  case docs =>
    intro other hother
    by_cases hsame : other = job'
    · rw [hsame, hdocs, h.docs job hmem, hpath, docsOf_append]
      cases o with
      | none => rfl
      | some x => simp [ho x rfl]
    · obtain ⟨hin, hne⟩ := hothers other hother hsame
      rw [docsOf_append_of_ne (fun x hx => by rw [ho x hx]; exact hne.symm)]
      exact h.docs other hin
  case generated =>
    have hsame : r'.generated = r.generated := by simp only [Run.generated, hfiles]
    rw [hsame, h.generated]
    congr 1
    apply List.map_congr_left
    intro path hclosedPath
    rw [docsOf_append_of_ne (fun x hx => by
      rw [ho x hx]; exact (h.closed_not_open hdict hmem hclosedPath).symm)]
  case failed => rw [hfailed, h.failed, List.filterMap_append]
  case staffed => rw [hpool]; exact h.staffed.set (by simp)
  case jobsStaffed =>
    intro other hother
    by_cases hsame : other = job'
    · rw [hsame]; exact hstaffed
    · exact h.jobsStaffed other (hothers other hother hsame).1
  case ended =>
    intro hc
    rw [hclosed] at hc
    exact absurd (h.ended hc) (by simp [Pool.not_done hbusy])

/-- A file that is opened owes all its symbols. -/
theorem opens {w : Nat} {path : String} {inputs : List Input} {rest : List (String × List Input)}
    (h : Books files log closed r) (hdict : (files.map Prod.fst).Nodup)
    (hidle : r.pool.slots[w]? = some .idle) (hq : r.pool.queue = (path, inputs) :: rest) :
    Books files log closed
      { r with
        pool := { r.pool with queue := rest }.set w (.busy (openFile g path inputs))
        dispatched := r.dispatched + 1 } := by
  obtain ⟨before, after, hjobs, hset⟩ := Pool.jobs_set hidle
  have hjobs' : ({ r.pool with queue := rest }.set w (.busy (openFile g path inputs))).jobs
      = before ++ [openFile g path inputs] ++ after := hset _
  simp only [Slot.job?, Option.toList_none, List.append_nil] at hjobs
  -- a file just opened owes all of its inputs: no worker of its own pool has taken one
  have hpending : (openFile g path inputs).pending = inputs := by
    rw [FileJob.pending, openFile, Pool.jobs_start]; rfl
  have hmem : ∀ {job}, job ∈ before ++ [openFile g path inputs] ++ after →
      job = openFile g path inputs ∨ job ∈ r.pool.jobs := by
    rw [hjobs]; intro job hjob; grind
  constructor
  case symbols =>
    refine Perm.trans ?_ h.symbols
    rw [hjobs', hjobs, hq, List.perm_iff_count]
    intro a
    -- the inputs move from the queue to the new job; counting sides with no order of the three parts
    simp only [Pool.set, List.flatMap_append, List.flatMap_cons, List.flatMap_nil,
      List.count_append, List.count_nil, hpending]
    simp only [openFile]
    omega
  case paths =>
    refine Perm.trans ?_ h.paths
    rw [hjobs', hjobs, hq, List.perm_iff_count]
    intro a
    simp only [Pool.set, List.map_append, List.map_cons, List.map_nil, List.count_append,
      List.count_cons, List.count_nil, openFile]
    omega
  case begun =>
    intro o ho
    have := h.begun o ho
    rw [hjobs', hjobs] at *
    grind
  case docs =>
    rw [hjobs']
    intro job hjob
    -- no outcome can be about a file that still waits, so its docs start out empty
    rcases hmem hjob with rfl | hold
    · exact (h.docsOf_waiting hdict (by simp [hq, openFile])).symm
    · exact h.docs job hold
  case generated => exact h.generated
  case failed => exact h.failed
  case staffed => exact h.staffed.take hq w _
  case jobsStaffed =>
    rw [hjobs']
    intro job hjob
    rcases hmem hjob with rfl | hold
    · exact Pool.staffed_start (workerCount_pos g _ _) inputs
    · exact h.jobsStaffed job hold
  case ended =>
    intro hc
    exact absurd (h.ended hc) (by simp [Pool.not_done hidle])

/-- A worker for files that leaves when nothing waits takes nothing with it. -/
theorem leaves {w : Nat} (h : Books files log closed r) (hidle : r.pool.slots[w]? = some .idle)
    (hq : r.pool.queue = []) :
    Books files log closed { r with pool := { r.pool with queue := [] }.set w .gone } := by
  -- a worker that leaves was idle: it had no job, so every list of jobs stays as it was
  obtain ⟨before, after, hjobs, hset⟩ := Pool.jobs_set hidle
  have hjobs' : ({ r.pool with queue := ([] : List (String × List Input)) }.set w .gone).jobs
      = r.pool.jobs := (hset .gone).trans hjobs.symm
  constructor
  case symbols => rw [hjobs']; simpa [Pool.set, hq] using h.symbols
  case paths => rw [hjobs']; simpa [Pool.set, hq] using h.paths
  case begun => rw [hjobs']; exact h.begun
  case docs => rw [hjobs']; exact h.docs
  case generated => exact h.generated
  case failed => exact h.failed
  case staffed => exact fun _ => rfl
  case jobsStaffed => rw [hjobs']; exact h.jobsStaffed
  case ended =>
    intro hc
    exact absurd (h.ended hc) (by simp [Pool.not_done hidle])

/-- The streams end without a further result. -/
theorem ends (h : Books files log closed r) (hdone : r.pool.done = true) :
    Books files log closed
      { r with files := r.files ++ [none], errors := r.errors ++ [none], closed := true } where
  symbols := h.symbols
  paths := h.paths
  begun := h.begun
  docs := h.docs
  generated := by
    rw [← h.generated]
    simp [Run.generated]
  failed := by
    rw [← h.failed]
    simp [Run.failed]
  staffed := h.staffed
  jobsStaffed := h.jobsStaffed
  ended := fun _ => hdone

/-- A file that is closed owes nothing, and what came out of it is published. -/
theorem closes {w : Nat} {job : FileJob} (h : Books files log closed r)
    (hbusy : r.pool.slots[w]? = some (.busy job)) (hdone : job.pool.done = true) :
    Books files log (closed ++ [job.path])
      { r with
        pool := r.pool.set w .idle
        files := if job.docs.isEmpty then r.files
          else r.files ++ [some { path := job.path, docs := job.docs }] } := by
  obtain ⟨before, after, hjobs, hset⟩ := Pool.jobs_set hbusy
  have hjobs' : (r.pool.set w .idle).jobs = before ++ after :=
    (hset .idle).trans (by simp [Slot.job?])
  simp only [Slot.job?, Option.toList_some] at hjobs
  have hmem : job ∈ r.pool.jobs := by rw [hjobs]; simp
  have hsub : ∀ {other}, other ∈ before ++ after → other ∈ r.pool.jobs := by
    rw [hjobs]; intro other hother; grind
  -- the file closes when its pool is done: nothing queued and nothing in a slot is lost with it
  have hpending : job.pending = [] := by
    obtain ⟨hqueue, hnone⟩ := (h.jobsStaffed job hmem).done hdone
    rw [FileJob.pending, hqueue, hnone]; rfl
  constructor
  case symbols =>
    refine Perm.trans ?_ h.symbols
    rw [hjobs', hjobs]
    simp [Pool.set, hpending, listed]
  case paths =>
    refine Perm.trans ?_ h.paths
    rw [hjobs', hjobs, List.perm_iff_count]
    intro a
    simp only [Pool.set, List.map_append, List.map_cons, List.map_nil, List.count_append]
    omega
  case begun =>
    intro o ho
    have := h.begun o ho
    rw [hjobs', hjobs] at *
    grind
  case docs =>
    rw [hjobs']
    exact fun other hother => h.docs other (hsub hother)
  case generated =>
    have hpublished := h.generated
    simp only [Run.generated] at hpublished ⊢
    -- a file without documentation is not published, and its empty list adds nothing to the docs
    rw [List.map_append, List.filter_append, ← hpublished, h.docs job hmem]
    split
    case isTrue hempty => simp [hempty]
    case isFalse hsome => simp [hsome]
  case failed => exact h.failed
  case staffed => exact h.staffed.set (by simp)
  case jobsStaffed =>
    rw [hjobs']
    exact fun other hother => h.jobsStaffed other (hsub hother)
  case ended =>
    intro hc
    exact absurd (h.ended hc) (by simp [Pool.not_done hbusy])

/-- A worker for symbols owes what it is busy with, and a change of what it does changes that
    alone. -/
theorem pending_set {job : FileJob} {s : Nat} {old : Slot SymbolJob}
    (h : job.pool.slots[s]? = some old) :
    ∃ others, job.pending ~ old.job?.toList.map SymbolJob.input ++ others ++ job.pool.queue ∧
      ∀ (new : Slot SymbolJob) (left : List Input) (job' : FileJob),
        job'.pool = { job.pool with queue := left }.set s new →
        job'.pending ~ new.job?.toList.map SymbolJob.input ++ others ++ left := by
  obtain ⟨before, after, hjobs, hset⟩ := Pool.jobs_set h
  -- the queue and the slot are set apart from the slots of the others, which no move of this one touches
  refine ⟨(before ++ after).map SymbolJob.input, ?_, ?_⟩
  · rw [FileJob.pending, hjobs, List.perm_iff_count]
    intro a
    simp only [List.map_append, List.count_append]
    omega
  · intro new left job' hpool
    have hjobs' : job'.pool.jobs = before ++ new.job?.toList ++ after := by
      rw [hpool]; exact hset new
    have hqueue : job'.pool.queue = left := by rw [hpool]; rfl
    rw [FileJob.pending, hjobs', hqueue, List.perm_iff_count]
    intro a
    simp only [List.map_append, List.count_append]
    omega

/-- A worker that is done with a symbol owes one symbol less. -/
theorem pending_idle {job job' : FileJob} {s : Nat} {symbol : SymbolJob}
    (h : job.pool.slots[s]? = some (.busy symbol)) (hpool : job'.pool = job.pool.set s .idle) :
    [symbol.input] ++ job'.pending ~ job.pending := by
  obtain ⟨others, hold, hnew⟩ := pending_set h
  refine Perm.trans ?_ hold.symm
  have := hnew .idle job.pool.queue job' hpool
  simpa [Slot.job?] using this

/-- A worker that goes on with a symbol owes what it owed. -/
theorem pending_busy {job job' : FileJob} {s : Nat} {symbol next : SymbolJob}
    (h : job.pool.slots[s]? = some (.busy symbol)) (hpool : job'.pool = job.pool.set s (.busy next))
    (hinput : next.input = symbol.input) : job'.pending ~ job.pending := by
  obtain ⟨others, hold, hnew⟩ := pending_set h
  refine Perm.trans ?_ hold.symm
  have := hnew (.busy next) job.pool.queue job' hpool
  simpa [Slot.job?, hinput] using this

/-- **A move keeps the books.**  Files are opened and closed, and the worker of a symbol goes on,
    but nothing is lost while the run is neither limited nor cancelled. -/
theorem move {r' : Run σ} {o : Option Outcome} (h : Books files log closed r)
    (hdict : (files.map Prod.fst).Nodup) (hlimits : Unlimited g)
    (ht : Transition g service r o r') (hlive : r'.cancelled = false) :
    ∃ closed', Books files (log ++ o.toList) closed' r' := by
  -- a case for each move; a symbol's moves all go through `progress`, which asks what its file still owes
  cases ht with
  | stay => exact ⟨closed, by simpa using h⟩
  | openNext w path inputs rest idle queue =>
    exact ⟨closed, by simpa using h.opens hdict idle queue⟩
  | leaveFiles w left idle why =>
    obtain ⟨hqueue, rfl⟩ := nothing_left why hlive (admitsFile_of_unlimited hlimits r)
    exact ⟨closed, by simpa using h.leaves idle hqueue⟩
  | closeFile w job busy done => exact ⟨closed ++ [job.path], by simpa using h.closes busy done⟩
  | startNext w s job input rest busy idle queue =>
    have hstaffed := h.jobsStaffed job (Pool.mem_jobs busy)
    refine ⟨closed, h.progress hdict busy rfl rfl (by simp) ?_ (by simp) ?_ rfl rfl ?_⟩
    -- the symbol leaves the queue and enters the slot: what the file owes is the same bag
    · obtain ⟨others, hold, hnew⟩ := pending_set idle
      have hpending := hnew (.busy (.building input)) rest
        { job with
          pool := { job.pool with queue := rest }.set s (.busy (.building input))
          started := job.started + 1 } rfl
      refine Perm.trans hpending (Perm.trans ?_ hold.symm)
      rw [queue, List.perm_iff_count]
      intro a
      simp only [Slot.job?, SymbolJob.input, Option.toList_some, Option.toList_none, List.map_cons,
        List.map_nil, List.count_append, List.count_cons, List.count_nil]
      omega
    · simp [Run.failed, setJob]
    · exact hstaffed.take queue s _
  | leaveSymbols w s job left busy idle why =>
    -- without limits and without cancelling, a worker only leaves an empty queue
    obtain ⟨hqueue, rfl⟩ := nothing_left why hlive (admitsSymbol_of_unlimited hlimits r job)
    refine ⟨closed, h.progress hdict busy rfl rfl (by simp) ?_ (by simp) ?_ rfl rfl ?_⟩
    · obtain ⟨others, hold, hnew⟩ := pending_set idle
      have hpending := hnew .gone [] { job with pool := { job.pool with queue := [] }.set s .gone } rfl
      refine Perm.trans hpending (Perm.trans ?_ hold.symm)
      simp [Slot.job?, hqueue]
    · simp [Run.failed, setJob]
    · exact fun _ => rfl
  | contextFails w s job input f busy building result =>
    have hstaffed := h.jobsStaffed job (Pool.mem_jobs busy)
    refine ⟨closed, h.progress hdict busy rfl rfl (by simp) ?_ ?_ ?_ rfl rfl ?_⟩
    · exact pending_idle building rfl
    · simp [Outcome.doc?]
    · simp [Run.failed, Run.fail, setJob, Outcome.error?]
    · exact hstaffed.set (by simp)
  | contextBuilt w s job input c busy building result =>
    have hstaffed := h.jobsStaffed job (Pool.mem_jobs busy)
    have hr : r.cancelled = false := hlive
    refine ⟨closed, h.progress hdict busy rfl rfl (by simp) ?_ (by simp) ?_ rfl rfl ?_⟩
    · simp only [hr, Bool.false_eq_true, if_false]
      exact pending_busy building rfl (Generator.context_input result)
    · simp [Run.failed, setJob]
    · exact hstaffed.set (by simp [hr])
  | ask w s job c busy asking =>
    have hstaffed := h.jobsStaffed job (Pool.mem_jobs busy)
    refine ⟨closed, h.progress hdict busy rfl rfl (by simp) ?_ (by simp) ?_ rfl rfl ?_⟩
    · exact pending_busy asking rfl rfl
    · simp [Run.failed, askService, setJob]
    · exact hstaffed.set (by simp)
  | returns w s job input text busy waiting =>
    have hstaffed := h.jobsStaffed job (Pool.mem_jobs busy)
    refine ⟨closed, h.progress hdict busy rfl rfl (by simp) ?_ ?_ ?_ rfl rfl ?_⟩
    · exact pending_idle waiting rfl
    · simp [Outcome.doc?]
    · simp [Run.failed, setJob, Outcome.error?]
    · exact hstaffed.set (by simp)
  | faults w s job input f busy waiting =>
    have hstaffed := h.jobsStaffed job (Pool.mem_jobs busy)
    refine ⟨closed, h.progress hdict busy rfl rfl (by simp) ?_ ?_ ?_ rfl rfl ?_⟩
    · exact pending_idle waiting rfl
    · simp [Outcome.doc?]
    · simp [Run.failed, Run.fail, setJob, Outcome.error?]
    · exact hstaffed.set (by simp)
  -- the run goes on, so no call was abandoned and nothing cancelled it
  | abandon w s job input answer busy waiting cancelled =>
    exact absurd cancelled (by simp [show r.cancelled = false from hlive])
  | cancel => cases hlive
  | close running done => exact ⟨closed, by simpa using h.ends done⟩

end Books

/-- A run keeps the books, whatever the order of its moves. -/
theorem books_of_run {log : List Outcome} {closed : List String} {r : Run σ}
    (hdict : (files.map Prod.fst).Nodup) (hlimits : Unlimited g) (h : Books files log closed r)
    (moves : List Move) (hlive : (r.run g service moves).cancelled = false) :
    ∃ closed', Books files (log ++ r.outcomes g service moves) closed' (r.run g service moves) := by
  induction moves generalizing r log closed with
  | nil => exact ⟨closed, by rw [outcomes, List.append_nil]; exact h⟩
  | cons m moves ih =>
    have hnext : (r.step g service m).cancelled = false := cancelled_of_run hlive
    obtain ⟨_, hbooks⟩ := h.move hdict hlimits (step_transition g service r m) hnext
    obtain ⟨closed', hend⟩ := ih hbooks hlive
    exact ⟨closed', by rw [outcomes, ← List.append_assoc]; exact hend⟩

/-- A service that knows one function only. -/
def knowsOnlyF : Service Unit where
  ask c _ :=
    let answer := if c.input.identifier = "func:F" then .text "F does." else .fault (.raised .os "?")
    (⟨false, answer⟩, ())

end Run

end Docsmith
