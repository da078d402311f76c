import Docsmith.Json.Reading
import Docsmith.Service.Fault

namespace Docsmith

/-!
# Answers over the network

* `Response`: a status, headers and a body.
* `Response.detail`: what an unsuccessful answer says of itself.
* `Response.check`: the fault that an unsuccessful answer stands for.
* `Response.document`: the document in the body.
-/

/-- An answer to a request. -/
structure Response where
  status : Int
  body : String := ""
  headers : List (String × String) := []

/-- A value as running text: a text itself, anything else as messages show it. -/
def Json.plain : Json → String
  | .text s => s
  | j => j.display

namespace Response

/-- The value of a header, whose name may be in capitals; empty when there is none. -/
def header (r : Response) (name : String) : String :=
  ", ".intercalate ((r.headers.filter fun (k, _) => k.toLower == name.toLower).map (·.2))

/-- The value of the document in the body; a byte order mark before it means nothing. -/
def document (r : Response) : Except ServiceFault Json :=
  let cs := r.body.toList
  let cs := if cs.head? == some (Char.ofNat 0xfeff) then cs.drop 1 else cs
  match Json.parse cs with
  | .ok j => .ok j
  | .error f => .error (.raised .document (f.message cs))

/-- The length up to which a body is quoted. -/
def quotedLength : Nat := 200

/-- The message that the document in the body gives for an error. -/
def statedError? (r : Response) : Option Json :=
  match r.document with
  | .error _ => none
  | .ok j =>
    match (j.get? "error").bind (·.get? "message") with
    | some m => if m.truthy then some m else none
    | none => none

/-- What an unsuccessful answer says of itself: the message that it states, or else the beginning of
    its body, or else its status. -/
def detail (r : Response) : String :=
  match r.statedError? with
  | some m => m.plain
  | none =>
    if r.body.isEmpty then toString r.status
    else String.ofList (r.body.toList.take quotedLength)

/-- Too many requests, or an error of the server: asking again may help. -/
def isPassing (r : Response) : Bool := r.status == 429 || 500 ≤ r.status

/-- The fault that an unsuccessful answer stands for. -/
def fault (r : Response) (provider : String) : ServiceFault :=
  if r.isPassing then
    .retryable (ServiceFault.statusLine provider r.status r.detail) r.status
      ((readFloat? (r.header "Retry-After")).map .float)
  else .rejected provider r.status r.detail

/-- Refuses an unsuccessful answer. -/
def check (r : Response) (provider : String) : Except ServiceFault Unit :=
  if r.status < 400 then .ok () else .error (r.fault provider)

end Response

end Docsmith
