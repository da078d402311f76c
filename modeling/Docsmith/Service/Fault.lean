import Docsmith.Number.Number

namespace Docsmith

/-!
# Faults of generation services

* `FaultKind`: the sorts of faults, from general to special.
* `FaultKind.isA`: a sort is a special case of another.
* `ServiceFault`: what went wrong when a service was asked.
* `ServiceFault.kind`, `ServiceFault.message`, `ServiceFault.retryAfter?`: what is known of it.
-/

/-- The sorts of faults.  Those of the network are either faults of the system or of the transport
    of requests. -/
inductive FaultKind where
  | any
  | os
  | timeout
  | connection
  | connectionReset
  | connectionRefused
  | connectionAborted
  | brokenPipe
  | fileNotFound
  | request
  | transport
  | network
  | connect
  | read
  | write
  | transportTimeout
  | connectTimeout
  | readTimeout
  | protocol
  | tooManyRedirects
  | runtime
  | retryable
  | service
  | value
  | document
  | lookup
  | key
  | index
  | member
  | mismatch
deriving DecidableEq, Repr

namespace FaultKind

/-- The next more general sort. -/
def parent? : FaultKind → Option FaultKind
  | any => none
  | timeout | connection | fileNotFound => some os
  | connectionReset | connectionRefused | connectionAborted | brokenPipe => some connection
  | transport | tooManyRedirects => some request
  | network | transportTimeout | protocol => some transport
  | connect | read | write => some network
  | connectTimeout | readTimeout => some transportTimeout
  | retryable | service => some runtime
  | document => some value
  | key | index => some lookup
  | os | request | runtime | value | lookup | member | mismatch => some any

/-- The sort and those more general, up to a number of steps. -/
def lineage : Nat → FaultKind → List FaultKind
  | 0, k => [k]
  | steps + 1, k =>
    match k.parent? with
    | some p => k :: lineage steps p
    | none => [k]

/-- The sort is the other one or a special case of it; no sort has more than four above it. -/
def isA (k general : FaultKind) : Bool := (lineage 4 k).contains general

/-- The sorts after which a request is repeated. -/
def repeated : List FaultKind := [timeout, connection, retryable, transport]

end FaultKind

/-- What went wrong when a service was asked: an answer that asks to come again, an answer that
    refuses, or some other fault. -/
inductive ServiceFault where
  | retryable (text : String) (status : Int) (after : Option Number)
  | rejected (provider : String) (status : Int) (detail : String)
  | raised (kind : FaultKind) (text : String)

namespace ServiceFault

/-- The sort of a fault. -/
def kind : ServiceFault → FaultKind
  | retryable .. => .retryable
  | rejected .. => .service
  | raised kind _ => kind

/-- The line about an unsuccessful answer. -/
def statusLine (provider : String) (status : Int) (detail : String) : String :=
  provider ++ " API " ++ toString status ++ ": " ++ detail

/-- A fault in words. -/
def message : ServiceFault → String
  | retryable text _ _ => text
  | rejected provider status detail => statusLine provider status detail
  | raised _ text => text

/-- How long to wait before asking again, if the service says so. -/
def retryAfter? : ServiceFault → Option Number
  | retryable _ _ after => after
  | _ => none

end ServiceFault

end Docsmith
