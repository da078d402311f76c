import Docsmith.Generate.Input

namespace Docsmith

/-!
# Services and cancellation

A service is asked about a symbol and answers with a text, fails, or never answers.  A run can be
cancelled; who waits for an answer then stops waiting.

* `Answer`, `Reaction`: how a service takes a question.
* `Service`: a service with whatever it remembers.
* `race`: waiting for an answer unless the run is cancelled first.
-/

/-- What a service says in the end. -/
inductive Answer where
  | text (s : String)
  | fault (f : ServiceFault)
  | never

/-- How a service takes a question: it may cancel the run, and then answers. -/
structure Reaction where
  cancels : Bool := false
  answer : Answer

/-- A service that remembers things of some type. -/
structure Service (σ : Type) where
  ask : Context → σ → Reaction × σ

/-- What comes of waiting for an answer. -/
inductive RaceResult where
  | text (s : String)
  | fault (f : ServiceFault)
  | cancelled
  | pending

/-- Waits for an answer.  A run that is cancelled before asks nothing, and an answer that is there
    wins over a cancellation. -/
def race (cancelled : Bool) (r : Reaction) : RaceResult :=
  if cancelled then .cancelled
  else match r.answer with
    | .text s => .text s
    | .fault f => .fault f
    | .never => if r.cancels then .cancelled else .pending

end Docsmith
