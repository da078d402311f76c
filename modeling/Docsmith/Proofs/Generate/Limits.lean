import Docsmith.Proofs.Generate.History
import Mathlib.Algebra.GroupWithZero.Nat
import Mathlib.Algebra.Order.BigOperators.Group.List
import Mathlib.Algebra.Order.Group.Nat
import Mathlib.Data.List.Nodup

namespace Docsmith

open List

/-!
# The limits of a run are exact

A worker that is refused an item has already taken it off the queue, and the item is lost.  Since a
refusal is for good, nothing is lost that would have been let through later: whatever the order in
which the workers take turns, each limit is kept at every moment and used up in the end.

* `Draws`: the items taken from a list, lost and waiting make up the list.
* `Pool.Manned`: no worker has left while something waits, unless there is a reason.
* `Run.Tally`: the invariant, `Run.Tally.turn`: a turn keeps it, `Run.tally_of_run`: so does a run.
* `capped`: a number under a limit.
* `Run.limits_are_exact`: what was begun at every moment, and how much of it in the end.
-/

/-! ### Drawing from a list -/

/-- The items that were taken, those that were lost and those that wait make up a list, and there is
    a lost one only if the next one would be refused, too. -/
def Draws {α : Type} (refused : Prop) (items taken queue : List α) : Prop :=
  ∃ lost, items = taken ++ lost ++ queue ∧ (lost ≠ [] → refused)

namespace Draws

variable {α : Type} {refused refused' : Prop} {items taken queue : List α}

theorem start (items : List α) : Draws refused items [] items :=
  ⟨[], by simp, fun h => absurd rfl h⟩

theorem initial (h : Draws refused items taken queue) : taken <+: items := by
  obtain ⟨lost, heq, -⟩ := h
  exact ⟨lost ++ queue, by rw [heq, List.append_assoc]⟩

theorem mono (h : Draws refused items taken queue) (himp : refused → refused') :
    Draws refused' items taken queue := by
  obtain ⟨lost, heq, hlost⟩ := h
  exact ⟨lost, heq, fun hne => himp (hlost hne)⟩

/-- An item that is not refused follows those that were taken before. -/
theorem take {x : α} {rest : List α} (h : Draws refused items taken (x :: rest))
    (hadmitted : ¬ refused) : Draws refused' items (taken ++ [x]) rest := by
  obtain ⟨lost, heq, hlost⟩ := h
  -- an item behind a lost one would be refused
  have hnil : lost = [] := by
    by_contra hne
    exact hadmitted (hlost hne)
  exact ⟨[], by simp [heq, hnil], fun h => absurd rfl h⟩

/-- A worker that leaves takes at most one item with it, and only one that is refused. -/
theorem leave {cancelled admits : Bool} {left : List α}
    (h : Draws (admits = false) items taken queue) (hwhy : Run.Leaves cancelled admits queue left) :
    Draws (admits = false) items taken left := by
  obtain ⟨lost, heq, hlost⟩ := h
  rcases hwhy with ⟨rfl, -⟩ | ⟨x, hq, hrefused⟩
  · exact ⟨lost, heq, hlost⟩
  · exact ⟨lost ++ [x], by simp [heq, hq], fun _ => hrefused⟩

/-- When nothing waits, either everything was taken or more is refused. -/
theorem complete (h : Draws refused items taken queue) (hend : queue = [] ∨ refused) :
    taken = items ∨ refused := by
  obtain ⟨lost, heq, hlost⟩ := h
  rcases hend with hnil | hrefused
  · by_cases hne : lost = []
    · exact .inl (by simp [heq, hne, hnil])
    · exact .inr (hlost hne)
  · exact .inr hrefused

end Draws

/-! ### Pools that workers leave for a reason -/

/-- No worker has left, and none was missing from the beginning, while something waits, unless there
    is a reason. -/
def Pool.Manned {α β : Type} (reason : Prop) (p : Pool α β) : Prop :=
  .gone ∈ p.slots ∨ p.slots = [] → p.queue = [] ∨ reason

namespace Pool

variable {α β : Type} {reason reason' : Prop} {p : Pool α β}

theorem manned_start {size : Nat} (hsize : 0 < size) (items : List α) :
    (start size items : Pool α β).Manned reason :=
  fun hleft => .inl (staffed_start hsize items hleft)

theorem Manned.mono (h : p.Manned reason) (himp : reason → reason') : p.Manned reason' :=
  fun hleft => (h hleft).imp_right himp

/-- A worker that stays keeps a pool manned. -/
theorem Manned.set (h : p.Manned reason) {w : Nat} {s : Slot β} (hs : s ≠ .gone) :
    (p.set w s).Manned reason := by
  rintro (hgone | hnone)
  · rcases List.mem_or_eq_of_mem_set hgone with hmem | heq
    · exact h (.inl hmem)
    · exact absurd heq.symm hs
  · exact h (.inr (by simpa [Pool.set] using hnone))

/-- A worker that takes an item keeps a pool manned. -/
theorem Manned.take (h : p.Manned reason) {x : α} {rest : List α} (hq : p.queue = x :: rest)
    (w : Nat) (job : β) : ({ p with queue := rest }.set w (.busy job)).Manned reason := by
  -- something waits, so that a worker who has left had a reason
  have hreason : .gone ∈ p.slots ∨ p.slots = [] → reason := by
    intro hleft
    rcases h hleft with hnil | hreason
    · simp [hq] at hnil
    · exact hreason
  rintro (hgone | hnone)
  · rcases List.mem_or_eq_of_mem_set hgone with hmem | heq
    · exact .inr (hreason (.inl hmem))
    · cases heq
  · exact .inr (hreason (.inr (by simpa [Pool.set] using hnone)))

/-- A worker that leaves has a reason to, unless nothing waits. -/
theorem manned_leave {cancelled admits : Bool} {left : List α}
    (hwhy : Run.Leaves cancelled admits p.queue left) (w : Nat) (s : Slot β) :
    ({ p with queue := left }.set w s).Manned (cancelled = true ∨ admits = false) := by
  intro _
  rcases hwhy with ⟨rfl, hnil | hcancelled⟩ | ⟨x, -, hrefused⟩
  · exact .inl hnil
  · exact .inr (.inl hcancelled)
  · exact .inr (.inr hrefused)

/-- When all workers are gone, nothing waits or there was a reason. -/
theorem Manned.done (h : p.Manned reason) (hdone : p.done = true) : p.queue = [] ∨ reason := by
  apply h
  cases hslots : p.slots with
  | nil => exact .inr rfl
  | cons s rest =>
    have hs : s.isGone = true := List.all_eq_true.mp hdone s (by simp [hslots])
    cases s with
    | gone => exact .inl (by simp)
    | idle => cases hs
    | busy job => cases hs

end Pool

/-! ### Limits -/

/-- A number under a limit; a limit of zero is none, and one below zero lets nothing pass. -/
def capped (limit : Int) (n : Nat) : Nat := if limit = 0 then n else min limit.toNat n

namespace Run

variable {σ : Type} {g : Generator} {service : Service σ} {files : List (String × List Input)}

/-- A count keeps a limit. -/
def Within (limit : Int) (count : Nat) : Prop := limit ≠ 0 → count ≤ limit.toNat

theorem within_zero (limit : Int) : Within limit 0 := fun _ => Nat.zero_le _

/-- A limit that is not reached leaves room for one more. -/
theorem within_succ {limit : Int} {count : Nat} (h : reached limit count = false) :
    Within limit (count + 1) := by
  intro hne
  simp only [reached, Bool.and_eq_false_iff, bne_eq_false_iff_eq, decide_eq_false_iff_not] at h
  omega

/-- A limit that is kept and reached is used up. -/
theorem eq_of_reached {limit : Int} {count : Nat} (h : reached limit count = true)
    (hwithin : Within limit count) : limit ≠ 0 ∧ count = limit.toNat := by
  simp only [reached, Bool.and_eq_true, bne_iff_ne, decide_eq_true_eq] at h
  have hle := hwithin h.1
  exact ⟨h.1, by omega⟩

/-- A limit that is reached stays so. -/
theorem reached_mono {limit : Int} {count count' : Nat} (h : reached limit count = true)
    (hle : count ≤ count') : reached limit count' = true := by
  simp only [reached, Bool.and_eq_true, bne_iff_ne, decide_eq_true_eq] at h ⊢
  exact ⟨h.1, by omega⟩

/-- A count that keeps a limit is its share under it, if that is all there is or the limit is
    reached. -/
theorem eq_capped {limit : Int} {count total : Nat} (hle : count ≤ total)
    (hwithin : Within limit count) (h : count = total ∨ reached limit count = true) :
    count = capped limit total := by
  unfold capped
  split
  case isTrue hzero =>
    rcases h with rfl | hreached
    · rfl
    · exact absurd hzero (eq_of_reached hreached hwithin).1
  case isFalse hne =>
    have hkept := hwithin hne
    rcases h with rfl | hreached
    · omega
    · have := (eq_of_reached hreached hwithin).2
      omega

theorem le_capped {limit : Int} {count total : Nat} (hle : count ≤ total)
    (hwithin : Within limit count) : count ≤ capped limit total := by
  unfold capped
  split
  case isTrue => exact hle
  case isFalse hne =>
    have := hwithin hne
    omega

theorem admitsFile_eq_false {r : Run σ} :
    r.admitsFile g = false
      ↔ reached g.limit r.started = true ∨ reached g.fileLimit r.dispatched = true := by
  simp only [admitsFile, Bool.and_eq_false_iff, Bool.not_eq_false']

theorem admitsSymbol_eq_false {r : Run σ} {job : FileJob} :
    r.admitsSymbol g job = false
      ↔ reached g.limit r.started = true ∨ reached g.perFileLimit job.started = true := by
  simp only [admitsSymbol, Bool.and_eq_false_iff, Bool.not_eq_false']

/-- A file that is refused is refused for good. -/
theorem admitsFile_mono {r r' : Run σ} (h : r.admitsFile g = false)
    (hstarted : r.started ≤ r'.started) (hdispatched : r.dispatched ≤ r'.dispatched) :
    r'.admitsFile g = false := by
  rw [admitsFile_eq_false] at *
  exact h.imp (reached_mono · hstarted) (reached_mono · hdispatched)

/-- A symbol that is refused is refused for good. -/
theorem admitsSymbol_mono {r r' : Run σ} {job job' : FileJob} (h : r.admitsSymbol g job = false)
    (hstarted : r.started ≤ r'.started) (hjob : job.started ≤ job'.started) :
    r'.admitsSymbol g job' = false := by
  rw [admitsSymbol_eq_false] at *
  exact h.imp (reached_mono · hstarted) (reached_mono · hjob)

/-! ### The tally of a run -/

/-- An open file has begun the first of its symbols, the others wait or are lost, and no worker has
    left it without a reason. -/
structure OpenShare (g : Generator) (log : History) (r : Run σ) (job : FileJob)
    (inputs : List Input) : Prop where
  listed : (job.path, inputs) ∈ log.files
  draws : Draws (r.admitsSymbol g job = false) inputs (log.begunIn job.path) job.pool.queue
  count : job.started = (log.begunIn job.path).length
  manned : job.pool.Manned (r.cancelled = true ∨ r.admitsSymbol g job = false)

/-- A closed file has begun the first of its symbols, and all of them unless there was a reason. -/
structure ClosedShare (g : Generator) (log : History) (r : Run σ) (path : String)
    (inputs : List Input) : Prop where
  listed : (path, inputs) ∈ log.files
  initial : log.begunIn path <+: inputs
  spent : log.begunIn path = inputs ∨ r.cancelled = true ∨ reached g.limit r.started = true ∨
    reached g.perFileLimit (log.begunIn path).length = true

/-- What was opened and begun so far, file by file, and that it keeps the limits. -/
structure Tally (g : Generator) (files : List (String × List Input)) (closed : List String)
    (log : History) (r : Run σ) : Prop where
  draws : Draws (r.admitsFile g = false) files log.files r.pool.queue
  manned : r.pool.Manned (r.cancelled = true ∨ r.admitsFile g = false)
  paths : closed ++ r.pool.jobs.map FileJob.path ~ log.files.map Prod.fst
  begun : ∀ x ∈ log.begun, x.1 ∈ log.files.map Prod.fst
  started : r.started = log.begun.length
  dispatched : r.dispatched = log.files.length
  withinRun : Within g.limit r.started
  withinFiles : Within g.fileLimit r.dispatched
  withinFile : ∀ path, Within g.perFileLimit (log.begunIn path).length
  openFiles : ∀ job ∈ r.pool.jobs, ∃ inputs, OpenShare g log r job inputs
  closedFiles : ∀ path ∈ closed, ∃ inputs, ClosedShare g log r path inputs
  ended : r.closed = true → r.pool.done = true

/-- At the beginning all files wait. -/
theorem tally_start (g : Generator) (files : List (String × List Input)) (state : σ) :
    Tally g files [] [] (start g files state) := by
  have hjobs : (start g files state).pool.jobs = [] := Pool.jobs_start _ _
  constructor
  case draws => exact .start files
  case manned => exact Pool.manned_start (workerCount_pos g _ _) files
  case paths => rw [hjobs]; exact Perm.refl _
  case begun => intro x hx; cases hx
  case started => rfl
  case dispatched => rfl
  case withinRun => exact within_zero _
  case withinFiles => exact within_zero _
  case withinFile => exact fun path => within_zero _
  case openFiles => rw [hjobs]; intro job hjob; cases hjob
  case closedFiles => intro path hpath; cases hpath
  case ended => intro h; cases h

/-- The symbols that were begun in a file do not change with an event of another file. -/
theorem begunIn_of_ne {log : History} {path other : String} (input : Input) (h : other ≠ path) :
    History.begunIn (log ++ [.begun path input]) other = log.begunIn other := by
  simp [History.begunIn, h.symm]

theorem begunIn_self (log : History) (path : String) (input : Input) :
    History.begunIn (log ++ [.begun path input]) path = log.begunIn path ++ [input] := by
  simp [History.begunIn]

/-- What an open file has begun stays, whatever happens elsewhere. -/
theorem OpenShare.mono {log log' : History} {r r' : Run σ} {job : FileJob} {inputs : List Input}
    (h : OpenShare g log r job inputs) (hfiles : ∀ f ∈ log.files, f ∈ log'.files)
    (hbegun : log'.begunIn job.path = log.begunIn job.path) (hstarted : r.started ≤ r'.started)
    (hcancelled : r.cancelled = true → r'.cancelled = true) : OpenShare g log' r' job inputs where
  listed := hfiles _ h.listed
  draws := hbegun ▸ h.draws.mono fun hrefused => admitsSymbol_mono hrefused hstarted (Nat.le_refl _)
  count := hbegun ▸ h.count
  manned := h.manned.mono fun hreason =>
    hreason.imp hcancelled fun hrefused => admitsSymbol_mono hrefused hstarted (Nat.le_refl _)

theorem ClosedShare.mono {log log' : History} {r r' : Run σ} {path : String} {inputs : List Input}
    (h : ClosedShare g log r path inputs) (hfiles : ∀ f ∈ log.files, f ∈ log'.files)
    (hbegun : log'.begunIn path = log.begunIn path) (hstarted : r.started ≤ r'.started)
    (hcancelled : r.cancelled = true → r'.cancelled = true) :
    ClosedShare g log' r' path inputs where
  listed := hfiles _ h.listed
  initial := hbegun ▸ h.initial
  spent := by
    rw [hbegun]
    rcases h.spent with hall | hc | hlimit | hfile
    · exact .inl hall
    · exact .inr (.inl (hcancelled hc))
    · exact .inr (.inr (.inl (reached_mono hlimit hstarted)))
    · exact .inr (.inr (.inr hfile))

/-- A file whose workers are gone has begun all its symbols unless there was a reason. -/
theorem OpenShare.close {log : History} {r : Run σ} {job : FileJob} {inputs : List Input}
    (h : OpenShare g log r job inputs) (hdone : job.pool.done = true) :
    ClosedShare g log r job.path inputs where
  listed := h.listed
  initial := h.draws.initial
  spent := by
    -- nothing waits any more unless the run was cancelled or more is refused
    have hleft : job.pool.queue = [] ∨ r.cancelled = true ∨ r.admitsSymbol g job = false :=
      h.manned.done hdone
    have hrefused : r.admitsSymbol g job = false → reached g.limit r.started = true ∨
        reached g.perFileLimit (log.begunIn job.path).length = true := by
      rw [admitsSymbol_eq_false, h.count]
      exact id
    rcases hleft with hnil | hc | hno
    · rcases h.draws.complete (.inl hnil) with hall | hno
      · exact .inl hall
      · exact .inr (.inr (hrefused hno))
    · exact .inr (.inl hc)
    · exact .inr (.inr (hrefused hno))

namespace Tally

variable {closed : List String} {log : History} {r : Run σ}

/-- No file is opened twice. -/
theorem nodup (h : Tally g files closed log r) (hdict : (files.map Prod.fst).Nodup) :
    (log.files.map Prod.fst).Nodup :=
  hdict.sublist (h.draws.initial.sublist.map _)

/-- The open files have different paths, none of which is that of a closed file. -/
theorem nodup_paths (h : Tally g files closed log r) (hdict : (files.map Prod.fst).Nodup) :
    (closed ++ r.pool.jobs.map FileJob.path).Nodup :=
  h.paths.nodup_iff.mpr (h.nodup hdict)

/-- A file that was not opened has not begun a symbol. -/
theorem begunIn_unopened (h : Tally g files closed log r) {path : String}
    (hpath : path ∉ log.files.map Prod.fst) : log.begunIn path = [] := by
  rw [History.begunIn, List.map_eq_nil_iff, List.filter_eq_nil_iff]
  intro x hx heq
  exact hpath (beq_iff_eq.mp heq ▸ h.begun x hx)

/-- A file that waits has not begun a symbol. -/
theorem begunIn_waiting (h : Tally g files closed log r) (hdict : (files.map Prod.fst).Nodup)
    {path : String} {inputs : List Input} {rest : List (String × List Input)}
    (hq : r.pool.queue = (path, inputs) :: rest) : log.begunIn path = [] := by
  obtain ⟨lost, heq, -⟩ := h.draws
  refine h.begunIn_unopened fun hmem => ?_
  rw [heq, hq, List.map_append, List.map_append, List.append_assoc] at hdict
  exact (List.nodup_append.mp hdict).2.2 path hmem path (by simp) rfl

/-- An open file that nothing was begun in keeps its share. -/
theorem openShare (h : Tally g files closed log r) {log' : History} {r' : Run σ} {job : FileJob}
    (hjob : job ∈ r.pool.jobs) (hfiles : ∀ f ∈ log.files, f ∈ log'.files)
    (hbegun : log'.begunIn job.path = log.begunIn job.path) (hstarted : r.started ≤ r'.started)
    (hcancelled : r.cancelled = true → r'.cancelled = true) :
    ∃ inputs, OpenShare g log' r' job inputs := by
  obtain ⟨inputs, hshare⟩ := h.openFiles job hjob
  exact ⟨inputs, hshare.mono hfiles hbegun hstarted hcancelled⟩

/-- A closed file keeps its share. -/
theorem closedShare (h : Tally g files closed log r) {log' : History} {r' : Run σ} {path : String}
    (hpath : path ∈ closed) (hfiles : ∀ f ∈ log.files, f ∈ log'.files)
    (hbegun : log'.begunIn path = log.begunIn path) (hstarted : r.started ≤ r'.started)
    (hcancelled : r.cancelled = true → r'.cancelled = true) :
    ∃ inputs, ClosedShare g log' r' path inputs := by
  obtain ⟨inputs, hshare⟩ := h.closedFiles path hpath
  exact ⟨inputs, hshare.mono hfiles hbegun hstarted hcancelled⟩

/-- What leaves the open files and the counts as they are keeps the tally, if it does so for what
    waits. -/
theorem rests {r' : Run σ} (h : Tally g files closed log r) (hjobs : r'.pool.jobs ~ r.pool.jobs)
    (hdraws : Draws (r.admitsFile g = false) files log.files r'.pool.queue)
    (hmanned : r'.pool.Manned (r.cancelled = true ∨ r.admitsFile g = false))
    (hstarted : r'.started = r.started) (hdispatched : r'.dispatched = r.dispatched)
    (hcancelled : r.cancelled = true → r'.cancelled = true)
    (hended : r'.closed = true → r'.pool.done = true) : Tally g files closed log r' := by
  -- nothing is counted in this move, so every refusal stands and the shares are carried over
  have hle : r.started ≤ r'.started := Nat.le_of_eq hstarted.symm
  have hrefused : r.admitsFile g = false → r'.admitsFile g = false :=
    fun hno => admitsFile_mono hno hle (Nat.le_of_eq hdispatched.symm)
  constructor
  case draws => exact hdraws.mono hrefused
  case manned => exact hmanned.mono fun hreason => hreason.imp hcancelled hrefused
  case paths => exact ((hjobs.map _).append_left _).trans h.paths
  case begun => exact h.begun
  case started => rw [hstarted]; exact h.started
  case dispatched => rw [hdispatched]; exact h.dispatched
  case withinRun => rw [hstarted]; exact h.withinRun
  case withinFiles => rw [hdispatched]; exact h.withinFiles
  case withinFile => exact h.withinFile
  case openFiles =>
    intro job hjob
    exact h.openShare (hjobs.mem_iff.mp hjob) (fun _ => id) rfl hle hcancelled
  case closedFiles => exact fun path hpath => h.closedShare hpath (fun _ => id) rfl hle hcancelled
  case ended => exact hended

/-- A file that is opened follows those that were opened before. -/
theorem opens {w : Nat} {path : String} {inputs : List Input} {rest : List (String × List Input)}
    (h : Tally g files closed log r) (hdict : (files.map Prod.fst).Nodup)
    (hidle : r.pool.slots[w]? = some .idle) (hq : r.pool.queue = (path, inputs) :: rest)
    (hadmitted : r.admitsFile g = true) :
    Tally g files closed (log ++ [.opened path inputs])
      { r with
        pool := { r.pool with queue := rest }.set w (.busy (openFile g path inputs))
        dispatched := r.dispatched + 1 } := by
  obtain ⟨others, hjobs, hjobs'⟩ := Pool.jobs_others hidle
  have hopen := hjobs' rest (.busy (openFile g path inputs))
  have hnone := h.begunIn_waiting hdict hq
  have hfiles : ∀ f ∈ log.files, f ∈ History.files (log ++ [.opened path inputs]) := by
    intro f hf
    simp [hf]
  have hbegun : ∀ p, History.begunIn (log ++ [.opened path inputs]) p = log.begunIn p := by
    intro p
    simp [History.begunIn]
  have hroom : reached g.fileLimit r.dispatched = false := by
    simp only [admitsFile, Bool.and_eq_true, Bool.not_eq_true'] at hadmitted
    exact hadmitted.2
  constructor
  case draws =>
    have hdraws := h.draws
    rw [hq] at hdraws
    simpa using hdraws.take (by simp [hadmitted])
  case manned =>
    refine (h.manned.take hq w _).mono fun hreason => hreason.imp id fun hrefused => ?_
    exact admitsFile_mono hrefused (Nat.le_refl _) (Nat.le_succ _)
  case paths =>
    -- the worker had no file before, and the path of this one comes to those that were opened
    have hold : r.pool.jobs.map FileJob.path ~ others.map FileJob.path := hjobs.map _
    have hnew := hopen.map FileJob.path
    rw [List.perm_iff_count]
    intro a
    have h1 := h.paths.count_eq a
    have h2 := hold.count_eq a
    have h3 := hnew.count_eq a
    simp [Slot.job?, openFile, List.count_append, List.count_cons] at h1 h2 h3 ⊢
    omega
  case begun =>
    intro x hx
    have hold := h.begun x (by simpa using hx)
    simp only [History.files_append, List.map_append, List.mem_append]
    exact .inl hold
  case started => simpa using h.started
  case dispatched => simp [h.dispatched]
  case withinRun => exact h.withinRun
  case withinFiles => exact within_succ hroom
  case withinFile => intro p; rw [hbegun]; exact h.withinFile p
  case openFiles =>
    intro job hjob
    rcases List.mem_append.mp (hopen.mem_iff.mp hjob) with hnew | hold
    · have heq : job = openFile g path inputs := by simpa [Slot.job?] using hnew
      subst heq
      refine ⟨inputs, ?_, ?_, ?_, Pool.manned_start (workerCount_pos g _ _) inputs⟩
      · simp [openFile]
      · rw [hbegun]
        exact hnone.symm ▸ .start inputs
      · rw [hbegun]
        exact hnone.symm ▸ rfl
    · exact h.openShare (hjobs.mem_iff.mpr hold) hfiles (hbegun _) (Nat.le_refl _) id
  case closedFiles => exact fun p hp => h.closedShare hp hfiles (hbegun p) (Nat.le_refl _) id
  case ended => simp [open_of_slot h.ended hidle]

/-- A worker for files that leaves changes nothing but what waits. -/
theorem leaves {w : Nat} {left : List (String × List Input)} (h : Tally g files closed log r)
    (hidle : r.pool.slots[w]? = some .idle)
    (hwhy : Leaves r.cancelled (r.admitsFile g) r.pool.queue left) :
    Tally g files closed log { r with pool := { r.pool with queue := left }.set w .gone } := by
  obtain ⟨others, hjobs, hjobs'⟩ := Pool.jobs_others hidle
  have hsame : ({ r.pool with queue := left }.set w .gone).jobs ~ r.pool.jobs :=
    (hjobs' left .gone).trans hjobs.symm
  exact h.rests hsame (h.draws.leave hwhy) (Pool.manned_leave hwhy w .gone) rfl rfl id
    (by simp [open_of_slot h.ended hidle])

/-- A file that is closed has begun what it could. -/
theorem shuts {w : Nat} {job : FileJob} (h : Tally g files closed log r)
    (hbusy : r.pool.slots[w]? = some (.busy job)) (hdone : job.pool.done = true)
    (published : List (Option GeneratedFile)) :
    Tally g files (closed ++ [job.path]) log
      { r with pool := r.pool.set w .idle, files := published } := by
  obtain ⟨others, hjobs, hjobs'⟩ := Pool.jobs_others hbusy
  have hothers : (r.pool.set w .idle).jobs ~ others := hjobs' r.pool.queue .idle
  have hmem : job ∈ r.pool.jobs := Pool.mem_jobs hbusy
  constructor
  case draws => exact h.draws
  case manned => exact h.manned.set (by simp)
  case paths =>
    -- a path goes from the open files to the closed ones
    rw [List.perm_iff_count]
    intro a
    have h1 := h.paths.count_eq a
    have h2 := (hjobs.map FileJob.path).count_eq a
    have h3 := (hothers.map FileJob.path).count_eq a
    simp only [Slot.job?, Option.toList_some, List.map_append, List.map_cons, List.map_nil,
      List.count_append] at h1 h2 h3 ⊢
    omega
  case begun => exact h.begun
  case started => exact h.started
  case dispatched => exact h.dispatched
  case withinRun => exact h.withinRun
  case withinFiles => exact h.withinFiles
  case withinFile => exact h.withinFile
  case openFiles =>
    intro other hother
    have hold : other ∈ r.pool.jobs := hjobs.mem_iff.mpr
      (List.mem_append_right _ (hothers.mem_iff.mp hother))
    exact h.openShare hold (fun _ => id) rfl (Nat.le_refl _) id
  case closedFiles =>
    intro path hpath
    rcases List.mem_append.mp hpath with hold | hnew
    · exact h.closedShare hold (fun _ => id) rfl (Nat.le_refl _) id
    · obtain ⟨listed, hshare⟩ := h.openFiles job hmem
      have heq : path = job.path := by simpa using hnew
      rw [heq]
      exact ⟨listed, (hshare.close hdone).mono (fun _ => id) rfl (Nat.le_refl _) id⟩
  case ended => simp [open_of_slot h.ended hbusy]

/-- What a worker for symbols does keeps the tally, if it does so for its own file. -/
theorem progress {r' : Run σ} {log' : History} {w : Nat} {job job' : FileJob}
    (h : Tally g files closed log r) (hdict : (files.map Prod.fst).Nodup)
    (hbusy : r.pool.slots[w]? = some (.busy job)) (hpool : r'.pool = r.pool.set w (.busy job'))
    (hpath : job'.path = job.path) (hfiles : log'.files = log.files)
    (hbegun : ∀ x ∈ log'.begun, x ∈ log.begun ∨ x.1 = job.path)
    (hbegunIn : ∀ path, path ≠ job.path → log'.begunIn path = log.begunIn path)
    (hstarted : r'.started = log'.begun.length) (hle : r.started ≤ r'.started)
    (hdispatched : r'.dispatched = r.dispatched) (hclosed : r'.closed = r.closed)
    (hcancelled : r.cancelled = true → r'.cancelled = true)
    (hwithinRun : Within g.limit r'.started)
    (hwithinFile : Within g.perFileLimit (log'.begunIn job.path).length)
    (hshare : ∀ inputs, OpenShare g log r job inputs → OpenShare g log' r' job' inputs) :
    Tally g files closed log' r' := by
  obtain ⟨others, hjobs, hjobs'⟩ := Pool.jobs_others hbusy
  have hopen : r'.pool.jobs ~ job' :: others := by
    rw [hpool]
    exact hjobs' r.pool.queue (.busy job')
  have hmem : job ∈ r.pool.jobs := Pool.mem_jobs hbusy
  obtain ⟨own, hown⟩ := h.openFiles job hmem
  -- no other file, open or closed, has the path of this one
  have hnodup : (closed ++ (job.path :: others.map FileJob.path)).Nodup :=
    ((hjobs.map FileJob.path).append_left closed).nodup_iff.mp (h.nodup_paths hdict)
  have hotherPaths : ∀ other ∈ others, other.path ≠ job.path := by
    intro other hother heq
    have hrest := (List.nodup_append.mp hnodup).2.1
    exact (List.nodup_cons.mp hrest).1 (heq ▸ List.mem_map_of_mem hother)
  have hclosedPaths : ∀ path ∈ closed, path ≠ job.path := by
    intro path hpath
    exact (List.nodup_append.mp hnodup).2.2 path hpath job.path (by simp)
  have hlisted : ∀ f ∈ log.files, f ∈ log'.files := by
    intro f hf
    rw [hfiles]
    exact hf
  constructor
  case draws =>
    rw [hfiles, hpool]
    exact h.draws.mono fun hrefused => admitsFile_mono hrefused hle (hdispatched ▸ Nat.le_refl _)
  case manned =>
    rw [hpool]
    refine (h.manned.set (by simp)).mono fun hreason => hreason.imp hcancelled fun hrefused => ?_
    exact admitsFile_mono hrefused hle (hdispatched ▸ Nat.le_refl _)
  case paths =>
    have hsame : r'.pool.jobs.map FileJob.path ~ r.pool.jobs.map FileJob.path := by
      refine (hopen.map _).trans ((hjobs.map _).trans ?_).symm
      simp [Slot.job?, hpath]
    rw [hfiles]
    exact (hsame.append_left _).trans h.paths
  case begun =>
    intro x hx
    rw [hfiles]
    rcases hbegun x hx with hold | heq
    · exact h.begun x hold
    · rw [heq]
      exact List.mem_map_of_mem hown.listed
  case started => exact hstarted
  case dispatched => rw [hdispatched, hfiles]; exact h.dispatched
  case withinRun => exact hwithinRun
  case withinFiles => rw [hdispatched]; exact h.withinFiles
  case withinFile =>
    intro path
    by_cases heq : path = job.path
    · rw [heq]; exact hwithinFile
    · rw [hbegunIn path heq]; exact h.withinFile path
  case openFiles =>
    intro other hother
    rcases List.mem_cons.mp (hopen.mem_iff.mp hother) with heq | hold
    · rw [heq]; exact ⟨own, hshare own hown⟩
    · have hopened := hjobs.mem_iff.mpr (List.mem_append_right _ hold)
      exact h.openShare hopened hlisted (hbegunIn _ (hotherPaths _ hold)) hle hcancelled
  case closedFiles =>
    intro path hpath
    exact h.closedShare hpath hlisted (hbegunIn _ (hclosedPaths _ hpath)) hle hcancelled
  case ended => simp [hclosed, open_of_slot h.ended hbusy]

/-- A worker that begins the next symbol of its file. -/
theorem begins {w s : Nat} {job : FileJob} {input : Input} {rest : List Input}
    (h : Tally g files closed log r) (hdict : (files.map Prod.fst).Nodup)
    (hbusy : r.pool.slots[w]? = some (.busy job)) (hq : job.pool.queue = input :: rest)
    (hadmitted : r.admitsSymbol g job = true) :
    Tally g files closed (log ++ [.begun job.path input])
      ({ r with started := r.started + 1 }.setJob w
        { job with
          pool := { job.pool with queue := rest }.set s (.busy (.building input))
          started := job.started + 1 }) := by
  obtain ⟨own, hown⟩ := h.openFiles job (Pool.mem_jobs hbusy)
  -- the move was admitted, so both limits had room before it, and one more still fits
  have hroom : reached g.limit r.started = false ∧ reached g.perFileLimit job.started = false := by
    simpa [admitsSymbol] using hadmitted
  refine h.progress hdict hbusy rfl rfl (by simp) ?_ (fun path => begunIn_of_ne input) ?_
    (Nat.le_succ _) rfl rfl id (within_succ hroom.1) ?_ ?_
  · intro x hx
    have hor : x ∈ log.begun ∨ x = (job.path, input) := by simpa using hx
    exact hor.imp id fun heq => by rw [heq]
  · simp [setJob, h.started]
  · rw [begunIn_self, List.length_append, ← hown.count]
    exact within_succ hroom.2
  -- the share of the file itself: its queue gave the input that the log now names
  · intro inputs hshare
    constructor
    case listed => simpa using hshare.listed
    case draws =>
      have hdraws := hshare.draws
      rw [hq] at hdraws
      rw [begunIn_self]
      exact hdraws.take (by simp [hadmitted])
    case count => rw [begunIn_self, List.length_append, ← hshare.count]; rfl
    case manned =>
      refine (hshare.manned.take hq s _).mono fun hreason => hreason.imp id fun hrefused => ?_
      exact admitsSymbol_mono hrefused (Nat.le_succ _) (Nat.le_succ _)

/-- A worker that begins nothing keeps the tally of its file, and so of all. -/
theorem idles {r' : Run σ} {log' : History} {w : Nat} {job job' : FileJob}
    (h : Tally g files closed log r) (hdict : (files.map Prod.fst).Nodup)
    (hbusy : r.pool.slots[w]? = some (.busy job)) (hpool : r'.pool = r.pool.set w (.busy job'))
    (hkeeps : Keeps r r') (hpath : job'.path = job.path) (hfiles : log'.files = log.files)
    (hbegun : log'.begun = log.begun) (hstarted : job'.started = job.started)
    (hdraws : ∀ inputs taken, Draws (r.admitsSymbol g job = false) inputs taken job.pool.queue →
      Draws (r.admitsSymbol g job = false) inputs taken job'.pool.queue)
    (hmanned : job.pool.Manned (r.cancelled = true ∨ r.admitsSymbol g job = false) →
      job'.pool.Manned (r.cancelled = true ∨ r.admitsSymbol g job = false)) :
    Tally g files closed log' r' := by
  -- no symbol begins in this move, so the counts stay and only the slot of one file changes
  have hbegunIn : ∀ path, log'.begunIn path = log.begunIn path := by
    intro path
    rw [History.begunIn, hbegun]
    rfl
  have hrefused : r.admitsSymbol g job = false → r'.admitsSymbol g job' = false :=
    fun hno => admitsSymbol_mono hno (Nat.le_of_eq hkeeps.started.symm) (Nat.le_of_eq hstarted.symm)
  refine h.progress hdict hbusy hpool hpath hfiles (fun x hx => .inl (hbegun ▸ hx))
    (fun path _ => hbegunIn path) ?_ (Nat.le_of_eq hkeeps.started.symm) hkeeps.dispatched
    hkeeps.closed hkeeps.cancelled ?_ ?_ ?_
  · rw [hkeeps.started, hbegun]
    exact h.started
  · rw [hkeeps.started]
    exact h.withinRun
  · rw [hbegunIn]
    exact h.withinFile _
  · intro inputs hshare
    constructor
    -- of the share, only the queue and the slots can differ, and both are hypotheses
    case listed => rw [hpath, hfiles]; exact hshare.listed
    case draws => rw [hpath, hbegunIn]; exact (hdraws _ _ hshare.draws).mono hrefused
    case count => rw [hstarted, hpath, hbegunIn]; exact hshare.count
    case manned =>
      exact (hmanned hshare.manned).mono fun hreason => hreason.imp hkeeps.cancelled hrefused

/-- **A turn keeps the tally.** -/
theorem turn {r' : Run σ} {e : Option Event} (h : Tally g files closed log r)
    (hdict : (files.map Prod.fst).Nodup) (ht : Turn g r e r') :
    ∃ closed', Tally g files closed' (log ++ e.toList) r' := by
  -- the moves of a symbol after its start all reduce to `idles`; the others have a lemma each
  cases ht with
  | stay => exact ⟨closed, by simpa using h⟩
  | opens w path inputs rest idle queue live admitted =>
    exact ⟨closed, h.opens hdict idle queue admitted⟩
  | leaves w left idle why => exact ⟨closed, by simpa using h.leaves idle why⟩
  | shuts w job busy done => exact ⟨closed ++ [job.path], by simpa using h.shuts busy done _⟩
  | begins w s job input rest busy idle queue live admitted =>
    exact ⟨closed, h.begins hdict busy queue admitted⟩
  | retires w s job left busy idle why =>
    exact ⟨closed, h.idles hdict busy rfl ⟨rfl, rfl, rfl, rfl, id⟩ rfl (by simp) (by simp) rfl
      (fun _ _ hdraws => hdraws.leave why) (fun _ => Pool.manned_leave why s .gone)⟩
  | advances w s job symbol next r' busy slot same pool keeps =>
    exact ⟨closed, h.idles hdict busy pool keeps rfl (by simp) (by simp) rfl (fun _ _ => id)
      (fun hmanned => hmanned.set (by simp))⟩
  | settles w s job symbol o r' busy slot about pool keeps =>
    exact ⟨closed, h.idles hdict busy pool keeps rfl (by simp) (by simp) rfl (fun _ _ => id)
      (fun hmanned => hmanned.set (by simp))⟩
  | drops w s job symbol r' busy slot cancelled pool keeps =>
    exact ⟨closed, h.idles hdict busy pool keeps rfl (by simp) (by simp) rfl (fun _ _ => id)
      (fun hmanned => hmanned.set (by simp))⟩
  | cancels =>
    refine ⟨closed, ?_⟩
    rw [Option.toList_none, List.append_nil]
    exact h.rests (Perm.refl _) h.draws h.manned rfl rfl (fun _ => rfl) h.ended
  | closes running done =>
    refine ⟨closed, ?_⟩
    rw [Option.toList_none, List.append_nil]
    exact h.rests (Perm.refl _) h.draws h.manned rfl rfl id (fun _ => done)

end Tally

/-- A run keeps the tally, whatever the order of its moves. -/
theorem tally_of_run (hdict : (files.map Prod.fst).Nodup) (state : σ) (moves : List Move) :
    ∃ closed, Tally g files closed ((start g files state).events g service moves)
      ((start g files state).run g service moves) :=
  history_induction (fun log r => ∃ closed, Tally g files closed log r)
    (fun ⟨_, h⟩ ht => h.turn hdict ht) ⟨[], tally_start g files state⟩ moves

/-! ### What was begun in all -/

/-- Items with keys are as many as there are under each of the keys. -/
theorem length_eq_sum_of_keys {α : Type} {keys : List String} (hkeys : keys.Nodup)
    (items : List (String × α)) (hall : ∀ x ∈ items, x.1 ∈ keys) :
    items.length = (keys.map fun key => (items.filter (·.1 == key)).length).sum := by
  induction keys generalizing items with
  | nil =>
    have hnil : items = [] :=
      List.eq_nil_iff_forall_not_mem.mpr fun x hx => by simpa using hall x hx
    simp [hnil]
  | cons key keys ih =>
    obtain ⟨hkey, hkeys⟩ := List.nodup_cons.mp hkeys
    have hrest := ih hkeys (items.filter (!·.1 == key)) fun x hx => by
      simp only [List.mem_filter, Bool.not_eq_true', beq_eq_false_iff_ne] at hx
      exact (List.mem_cons.mp (hall x hx.1)).resolve_left hx.2
    -- what is left out for this key has none of the other keys
    have hothers : keys.map (fun k => ((items.filter (!·.1 == key)).filter (·.1 == k)).length)
        = keys.map (fun k => (items.filter (·.1 == k)).length) := by
      apply List.map_congr_left
      intro k hk
      have hne : k ≠ key := fun heq => hkey (heq ▸ hk)
      rw [List.filter_filter]
      congr 1
      apply List.filter_congr
      intro x _
      by_cases hx : x.1 = k <;> simp [hx, hne]
    rw [List.length_eq_length_filter_add (fun x => x.1 == key), hrest, hothers, List.map_cons,
      List.sum_cons]

namespace Tally

variable {closed : List String} {log : History} {r : Run σ}

/-- The symbols that were begun, counted file by file. -/
theorem started_eq_sum (h : Tally g files closed log r) (hdict : (files.map Prod.fst).Nodup) :
    r.started = (log.files.map fun f => (log.begunIn f.1).length).sum := by
  rw [h.started, length_eq_sum_of_keys (h.nodup hdict) log.begun h.begun, List.map_map]
  congr 1
  apply List.map_congr_left
  intro f _
  simp [History.begunIn]

/-- The file of a path that was opened is the one that is listed under it. -/
theorem listed_eq (h : Tally g files closed log r) (hdict : (files.map Prod.fst).Nodup)
    {path : String} {inputs listed : List Input} (hmem : (path, inputs) ∈ files)
    (hopened : (path, listed) ∈ log.files) : listed = inputs := by
  have hlisted : (path, listed) ∈ files := h.draws.initial.subset hopened
  exact congrArg Prod.snd (List.inj_on_of_nodup_map hdict hlisted hmem rfl)

/-- What was begun in a file is the first of its symbols. -/
theorem initial (h : Tally g files closed log r) (hdict : (files.map Prod.fst).Nodup)
    {path : String} {inputs : List Input} (hmem : (path, inputs) ∈ files) :
    log.begunIn path <+: inputs := by
  by_cases hopened : path ∈ log.files.map Prod.fst
  · rcases List.mem_append.mp (h.paths.mem_iff.mpr hopened) with hclosed | hopen
    · obtain ⟨listed, hshare⟩ := h.closedFiles path hclosed
      exact h.listed_eq hdict hmem hshare.listed ▸ hshare.initial
    · obtain ⟨job, hjob, rfl⟩ := List.mem_map.mp hopen
      obtain ⟨listed, hshare⟩ := h.openFiles job hjob
      exact h.listed_eq hdict hmem hshare.listed ▸ hshare.draws.initial
  · rw [h.begunIn_unopened hopened]
    exact List.nil_prefix

/-- The files that were opened are among the first ones that the limit for files lets through. -/
theorem opened_initial (h : Tally g files closed log r) :
    log.files <+: files.take (capped g.fileLimit files.length) := by
  refine List.prefix_take_iff.mpr ⟨h.draws.initial, ?_⟩
  refine le_capped h.draws.initial.length_le ?_
  rw [← h.dispatched]
  exact h.withinFiles

/-- No more symbols are begun than the limits for files and in each file let through. -/
theorem started_le_sum (h : Tally g files closed log r) (hdict : (files.map Prod.fst).Nodup) :
    r.started ≤ ((files.take (capped g.fileLimit files.length)).map fun f =>
      capped g.perFileLimit f.2.length).sum := by
  calc r.started = (log.files.map fun f => (log.begunIn f.1).length).sum := h.started_eq_sum hdict
    _ ≤ (log.files.map fun f => capped g.perFileLimit f.2.length).sum := by
      apply List.sum_le_sum
      intro f hf
      have hinitial := h.initial hdict (h.draws.initial.subset hf)
      exact le_capped hinitial.length_le (h.withinFile f.1)
    _ ≤ _ := (h.opened_initial.sublist.map _).sum_le_sum fun n _ => Nat.zero_le n

/-- When all workers of a run that goes on are gone and its limit is not reached, the files were
    opened that the limit for files lets through, and in each of them what its limit lets through
    was begun. -/
theorem started_eq_sum_of_done (h : Tally g files closed log r)
    (hdict : (files.map Prod.fst).Nodup) (hdone : r.pool.done = true) (hlive : r.cancelled = false)
    (hroom : reached g.limit r.started = false) :
    r.started = ((files.take (capped g.fileLimit files.length)).map fun f =>
      capped g.perFileLimit f.2.length).sum := by
  have hlive' : ¬ r.cancelled = true := by simp [hlive]
  have hroom' : ¬ reached g.limit r.started = true := by simp [hroom]
  -- a file that is refused is refused by the limit for files
  have hopened : log.files = files.take (capped g.fileLimit files.length) := by
    have hleft : r.pool.queue = [] ∨ r.admitsFile g = false :=
      (h.manned.done hdone).imp_right fun hreason => hreason.resolve_left hlive'
    have hall : log.files.length = files.length ∨ reached g.fileLimit log.files.length = true := by
      rcases h.draws.complete hleft with heq | hrefused
      · exact .inl (congrArg List.length heq)
      · rw [← h.dispatched]
        exact .inr ((admitsFile_eq_false.mp hrefused).resolve_left hroom')
    have hcount : log.files.length = capped g.fileLimit files.length :=
      eq_capped h.draws.initial.length_le (h.dispatched ▸ h.withinFiles) hall
    rw [← hcount]
    exact List.prefix_iff_eq_take.mp h.draws.initial
  rw [h.started_eq_sum hdict, ← hopened]
  congr 1
  apply List.map_congr_left
  rintro ⟨path, inputs⟩ hf
  have hmem : (path, inputs) ∈ files := h.draws.initial.subset hf
  -- no file is open any more, so that this one is closed
  have hclosed : path ∈ closed := by
    have hpath := h.paths.mem_iff.mpr (List.mem_map_of_mem hf)
    simpa [Pool.jobs_of_done hdone] using hpath
  obtain ⟨listed, hshare⟩ := h.closedFiles path hclosed
  have heq : listed = inputs := h.listed_eq hdict hmem hshare.listed
  subst heq
  refine eq_capped hshare.initial.length_le (h.withinFile path) ?_
  rcases hshare.spent with hall | hc | hlimit | hfile
  · exact .inl (congrArg List.length hall)
  · exact absurd hc hlive'
  · exact absurd hlimit hroom'
  · exact .inr hfile

/-- When all workers of a run that goes on are gone, its limit is reached or nothing is left that
    the others let through. -/
theorem started_eq (h : Tally g files closed log r) (hdict : (files.map Prod.fst).Nodup)
    (hdone : r.pool.done = true) (hlive : r.cancelled = false) :
    r.started = capped g.limit ((files.take (capped g.fileLimit files.length)).map fun f =>
      capped g.perFileLimit f.2.length).sum := by
  refine eq_capped (h.started_le_sum hdict) h.withinRun ?_
  cases hroom : reached g.limit r.started with
  | false => exact .inl (h.started_eq_sum_of_done hdict hdone hlive hroom)
  | true => exact .inr rfl

end Tally

/-- **The limits are exact.**  At every moment of a run, whatever the order in which its workers
    take turns, its counts are those of the files that were opened and the symbols that were begun,
    none of them exceeds its limit, and what was opened and begun are the first files and the first
    symbols of each.  When the streams of a run are closed that was not cancelled, the symbols begun
    are as many as the limits let through: of the first files, in each the first symbols, and in all
    no more than the limit of the run. -/
theorem limits_are_exact (g : Generator) (service : Service σ) (state : σ)
    (files : List (String × List Input)) (moves : List Move)
    (hdict : (files.map Prod.fst).Nodup) :
    let final := (start g files state).run g service moves
    let log := (start g files state).events g service moves
    (final.started = log.begun.length ∧ (g.limit ≠ 0 → final.started ≤ g.limit.toNat)) ∧
    (final.dispatched = log.files.length ∧
      (g.fileLimit ≠ 0 → final.dispatched ≤ g.fileLimit.toNat)) ∧
    (∀ job ∈ final.pool.jobs, job.started = (log.begunIn job.path).length) ∧
    (∀ path, g.perFileLimit ≠ 0 → (log.begunIn path).length ≤ g.perFileLimit.toNat) ∧
    log.files <+: files ∧
    (∀ path inputs, (path, inputs) ∈ files → log.begunIn path <+: inputs) ∧
    (final.cancelled = false → final.closed = true →
      final.started = capped g.limit ((files.take (capped g.fileLimit files.length)).map fun f =>
        capped g.perFileLimit f.2.length).sum) := by
  intro final log
  -- the tally holds of every run; what is left reads the claim's parts off it
  obtain ⟨closed, h⟩ : ∃ closed, Tally g files closed log final := tally_of_run hdict state moves
  refine ⟨⟨h.started, h.withinRun⟩, ⟨h.dispatched, h.withinFiles⟩, ?_, h.withinFile,
    h.draws.initial, ?_, ?_⟩
  · intro job hjob
    obtain ⟨listed, hshare⟩ := h.openFiles job hjob
    exact hshare.count
  · intro path inputs hmem
    exact h.initial hdict hmem
  · intro hlive hclosed
    exact h.started_eq hdict (h.ended hclosed) hlive

/-- Two files of three and two symbols in all: the third file is taken off the queue and refused,
    and so is the second symbol of the first file, since one of the second file was begun before. -/
theorem limits_are_exact_of_two_files :
    let g : Generator := { limit := 2, perFileLimit := 2, fileLimit := 2 }
    let files : List (String × List Input) :=
      [("a.go", [⟨[], "go", "func:F", "a.go", ""⟩, ⟨[], "go", "func:G", "a.go", ""⟩]),
        ("b.go", [⟨[], "go", "func:H", "b.go", ""⟩]),
        ("c.go", [⟨[], "go", "func:I", "c.go", ""⟩])]
    let settle w s := [Move.symbol w s, .symbol w s, .answer w s, .symbol w s]
    let moves := [.file 1, .file 0, .file 2, .symbol 0 0, .symbol 1 0, .symbol 1 1]
      ++ settle 0 0 ++ settle 1 0
      ++ [.file 1, .file 0, .file 1, .file 0, .close]
    let final := (start g files ()).run g knowsOnlyF moves
    final.cancelled = false ∧ final.closed = true ∧ final.started = capped 2 (2 + 1) := by
  intro g files settle moves final
  have hlive : final.cancelled = false := by decide +kernel
  have hclosed : final.closed = true := by decide +kernel
  exact ⟨hlive, hclosed,
    (limits_are_exact g knowsOnlyF () files moves (by decide)).2.2.2.2.2.2 hlive hclosed⟩

end Run

end Docsmith
