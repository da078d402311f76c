import Docsmith.Generate.Pool
import Docsmith.Service.Fault

namespace Docsmith

/-!
# Runs of a single pool

* `Handler`: what working on an item does.
* `PoolRun`: a pool at work, with the items that were started and finished.
* `PoolRun.advance`: the turn of a worker.
* `PoolRun.drive`: turns until every worker is gone, or until the pool is stopped by a fault.
-/

/-- What working on an item does: it may cancel the run, or fail at once. -/
structure Handler (α : Type) where
  cancels : α → Bool := fun _ => false
  fault? : α → Option ServiceFault := fun _ => none

/-- A pool at work: the items started and finished, and the first fault with the worker it hit. -/
structure PoolRun (α : Type) where
  pool : Pool α α
  cancelled : Bool := false
  started : List α := []
  finished : List α := []
  failure : Option (Nat × ServiceFault) := none

namespace PoolRun

variable {α : Type}

/-- A pool with at least one worker, and with all items waiting. -/
def start (size : Int) (items : List α) (cancelled : Bool) : PoolRun α :=
  { pool := Pool.start (max 1 size).toNat items, cancelled := cancelled }

/-- A worker takes the next item. -/
def take (h : Handler α) (admits : α → Bool) (r : PoolRun α) (w : Nat) : PoolRun α :=
  match Pool.next r.cancelled admits r.pool.queue with
  | (none, queue) => { r with pool := { r.pool with queue := queue }.set w .gone }
  | (some x, queue) =>
    let r := { r with started := r.started ++ [x], cancelled := r.cancelled || h.cancels x }
    match h.fault? x with
    | some f =>
      { r with
        pool := { r.pool with queue := queue }.set w .gone
        failure := r.failure.or (some (w, f)) }
    | none => { r with pool := { r.pool with queue := queue }.set w (.busy x) }

/-- The turn of a worker: it finishes its item and takes the next. -/
def advance (h : Handler α) (admits : α → Bool) (r : PoolRun α) (w : Nat) : PoolRun α :=
  match r.pool.slots[w]? with
  | some .idle => r.take h admits w
  | some (.busy x) => { r with finished := r.finished ++ [x] }.take h admits w
  | _ => r

/-- The turns of the first workers. -/
def turns (h : Handler α) (admits : α → Bool) (r : PoolRun α) (count : Nat) : PoolRun α :=
  (List.range count).foldl (advance h admits) r

/-- Rounds, no more than a number of them.  After a fault the workers have one more turn, and those
    before the one that failed another, before the pool stops. -/
def driveFrom (h : Handler α) (admits : α → Bool) : Nat → PoolRun α → PoolRun α
  | 0, r => r
  | rounds + 1, r =>
    if r.pool.done then r
    else match r.failure with
      | some (w, _) => (r.turns h admits r.pool.slots.length).turns h admits w
      | none => driveFrom h admits rounds (r.turns h admits r.pool.slots.length)

/-- Turns until the pool is done. -/
def drive (h : Handler α) (admits : α → Bool) (r : PoolRun α) : PoolRun α :=
  r.driveFrom h admits (r.pool.queue.length + 2)

end PoolRun

end Docsmith
