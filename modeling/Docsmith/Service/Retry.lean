import Docsmith.Number.Decimal
import Docsmith.Service.Fault

namespace Docsmith

/-!
# Asking again

A request that failed for a passing reason is repeated after a delay that doubles each time, up to a
longest delay, and is at least as long as the service asks for.

* `DelayArith`: the arithmetic of delays.
* `RetryPolicy`: how often and how soon a request is repeated.
* `RetryPolicy.delay`: the delay after an attempt.
* `RetryPolicy.run`: the attempts up to the first that settles the request.
-/

/-- The arithmetic of delays: doubling some times, the smaller and the larger of two, and whether
    one is no delay at all. -/
structure DelayArith (ν : Type) where
  double : ν → Nat → ν
  min : ν → ν → ν
  max : ν → ν → ν
  isZero : ν → Bool

/-- The arithmetic of integers and floats. -/
def Number.delays : DelayArith Number where
  double := fun d n => d.mul (.int (Nat.pow 2 n))
  min := Number.min
  max := Number.max
  isZero := Number.isZero

/-- How often and how soon a request is repeated, and after which faults. -/
structure RetryPolicy (ν : Type) where
  attempts : Int
  baseDelay : ν
  maxDelay : ν
  repeats : ServiceFault → Bool

/-- The faults after which requests are repeated, unless told otherwise. -/
def ServiceFault.isPassing (f : ServiceFault) : Bool := FaultKind.repeated.any f.kind.isA

/-- The usual policy: three attempts, after one second at first and thirty at most. -/
def RetryPolicy.usual : RetryPolicy Number where
  attempts := 3
  baseDelay := .float 1.0
  maxDelay := .float 30.0
  repeats := ServiceFault.isPassing

/-- A delay before a request is repeated: the number of the attempt that failed, counted from one,
    how long to wait and why. -/
structure Pause (ν : Type) where
  attempt : Nat
  delay : ν
  cause : ServiceFault

/-- What became of a request: its result, the pauses before, the number of attempts, and the state
    in which the asking left things. -/
structure RetryOutcome (ν α σ : Type) where
  result : Except ServiceFault α
  pauses : List (Pause ν)
  calls : Nat
  state : σ

namespace RetryPolicy

variable {ν α σ : Type}

/-- The delay after an attempt, counted from zero, that failed with a wish for a delay. -/
def delay (p : RetryPolicy ν) (arith : DelayArith ν) (attempt : Nat) (wish : Option ν) : ν :=
  let backoff := arith.min (arith.double p.baseDelay attempt) p.maxDelay
  match wish with
  | some w => if arith.isZero w then backoff else arith.min (arith.max backoff w) p.maxDelay
  | none => backoff

/-- The fault of a request that was never made. -/
def noAttempt : ServiceFault := .raised .runtime "Retry loop exited without result or error"

/-- Makes attempts from one number on, with some left after it. -/
def attemptFrom (p : RetryPolicy ν) (arith : DelayArith ν) (wish : ServiceFault → Option ν)
    (call : σ → Except ServiceFault α × σ) : Nat → Nat → σ → RetryOutcome ν α σ
  | attempt, 0, s =>
    let (result, s) := call s
    ⟨result, [], attempt + 1, s⟩
  | attempt, left + 1, s =>
    match call s with
    | (.ok a, s) => ⟨.ok a, [], attempt + 1, s⟩
    | (.error f, s) =>
      if p.repeats f then
        let pause : Pause ν := ⟨attempt + 1, p.delay arith attempt (wish f), f⟩
        let later := attemptFrom p arith wish call (attempt + 1) left s
        { later with pauses := pause :: later.pauses }
      else ⟨.error f, [], attempt + 1, s⟩

/-- Makes attempts up to the first that settles the request, or all that are allowed. -/
def run (p : RetryPolicy ν) (arith : DelayArith ν) (wish : ServiceFault → Option ν)
    (call : σ → Except ServiceFault α × σ) (s : σ) : RetryOutcome ν α σ :=
  match p.attempts.toNat with
  | 0 => ⟨.error noAttempt, [], 0, s⟩
  | n + 1 => p.attemptFrom arith wish call 0 n s

end RetryPolicy

/-- The warning about a pause. -/
def Pause.warning (pause : Pause Number) (operation : String) (attempts : Int) : String :=
  operation ++ ": retry " ++ toString pause.attempt ++ "/" ++ toString attempts ++ " after "
    ++ fixedText 1 pause.delay.toFloat ++ "s: " ++ pause.cause.message

end Docsmith
