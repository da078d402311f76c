import Docsmith.Go.Declarations

namespace Docsmith.Go

/-!
# Minification of Go sources

* `stripBodies`: functions and methods lose their bodies.
* `stripComments`: comments go, all of them or those that document what is not exported.
* `strip`: one step of minification.
-/

/-- The stretch of the body of a function, with the white space before it. -/
def bodyRange? (n : Node) : Option (Nat × Nat) :=
  match (withBefore [] n.children).find? fun (_, c) => c.role == "body" with
  | some (prev :: _, body) => some (prev.stop, body.stop)
  | _ => none

/-- Whether the body of a node at the top level is to go: that of a function or method, exported
    ones only when asked for. -/
def losesBody (t : SourceTree) (exported : Bool) (n : Node) : Except Failure Bool := do
  let decl ← if n.kind == "function_declaration" then some <$> function t [] n
    else if n.kind == "method_declaration" then method t [] n
    else pure none
  return match decl with
    | some d => exported || !d.exported
    | none => false

/-- Deletes the bodies of functions and methods. -/
def stripBodies (t : SourceTree) (exported : Bool) : Except Failure SourceTree := do
  let stripped ← t.root.namedChildren.foldlM (fun (t : SourceTree) n => do
    if ← losesBody t exported n then
      match bodyRange? n with
      | some (start, stop) => return t.edit ("body:" ++ toString n.start) start stop []
      | none => return t
    else return t) t
  stripped.reparse parseTree

/-- Deletes all comments, or the documentation of what is not exported. -/
def stripComments (t : SourceTree) (exported : Bool) : Except Failure SourceTree := do
  let stripped ← if exported then pure t.dropComments
    else do
      let hidden := (← declarations t).filter fun d => !d.exported && d.slot.hasDoc
      pure (hidden.foldl (fun t d => t.edit d.slot.key d.slot.start d.slot.stop []) t)
  stripped.reparse parseTree

/-- Applies one step of minification and reads the result anew. -/
def strip (t : SourceTree) (step : MinifyStep) : Except Failure SourceTree := do
  let t ← if step.bodies then stripBodies t step.exported else pure t
  if step.comments then stripComments t step.exported else pure t

end Docsmith.Go
