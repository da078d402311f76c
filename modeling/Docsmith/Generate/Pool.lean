namespace Docsmith

/-!
# Worker pools

A pool is a queue of items and a number of workers.  A worker takes the next item, asks whether it
is admitted and works on it; it stops when the run is cancelled, the queue is empty or an item is
refused, and an item that was refused is lost.

* `Slot`: what a worker is doing.
* `Pool`: a queue and its workers.
* `Pool.start`: no more workers than items.
* `Pool.next`: the item a worker takes.
-/

/-- What a worker is doing: looking for an item, busy with a job, or gone. -/
inductive Slot (β : Type) where
  | idle
  | busy (job : β)
  | gone

/-- The worker is gone. -/
def Slot.isGone {β : Type} : Slot β → Bool
  | gone => true
  | _ => false

/-- The job of a busy worker. -/
def Slot.job? {β : Type} : Slot β → Option β
  | busy job => some job
  | _ => none

/-- Items that wait, and the workers. -/
structure Pool (α β : Type) where
  queue : List α
  slots : List (Slot β)

namespace Pool

variable {α β : Type}

/-- A pool with all items waiting: as many workers as asked for, but no more than items. -/
def start (size : Nat) (items : List α) : Pool α β :=
  { queue := items, slots := List.replicate (min size items.length) .idle }

/-- All workers are gone. -/
def done (p : Pool α β) : Bool := p.slots.all Slot.isGone

/-- The jobs that are under way. -/
def jobs (p : Pool α β) : List β := p.slots.filterMap Slot.job?

/-- The item that a worker takes, and what waits afterwards.  There is none when the run is
    cancelled, nothing waits, or the next item is refused. -/
def next (cancelled : Bool) (admits : α → Bool) : List α → Option α × List α
  | [] => (none, [])
  | x :: rest =>
    if cancelled then (none, x :: rest) else if admits x then (some x, rest) else (none, rest)

/-- The pool with a worker in another state. -/
def set (p : Pool α β) (w : Nat) (s : Slot β) : Pool α β := { p with slots := p.slots.set w s }

end Pool

end Docsmith
