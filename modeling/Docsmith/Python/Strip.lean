import Docsmith.Python.Declarations

namespace Docsmith.Python

open Text

/-!
# Documenting and minifying Python sources

* `renderDoc`: documentation for a slot.
* `stripBodies`: functions lose their statements after the documentation.
* `stripComments`: comments and documentation go.
* `strip`: one step of minification.
-/

/-- Documentation for a slot: comments for values, and else a string literal.  A blank text clears
    the slot. -/
def renderDoc (s : DocSlot) (text : String) : Bytes :=
  match s.style with
  | .line => s.renderLine "#" text
  | .docstring =>
    if isBlankText text then s.clear.getD s.former
    else
      let indent := s.indent.toList
      let literal := Doc.docstring Doc.commentWidth indent (wrapChars Doc.commentWidth text.toList)
      if s.inline then encodeChars ('\n' :: indent ++ literal ++ '\n' :: indent)
      else encodeChars (literal ++ s.follow.toList)

/-- The statements of a function that a shorter body replaces, and where they end. -/
def bodyRange? (definition : Node) : Option (Nat × Nat × Nat) :=
  match definition.child? "body" with
  | none => none
  | some block =>
    let stmts := statements block
    let rest := match stmts with
      | first :: rest => if isDocstring first then rest else stmts
      | [] => []
    match rest with
    | [] => none
    | [only] => if isStub only then none else some (block.start, only.start, block.stop)
    | first :: _ => some (block.start, first.start, block.stop)

/-- Replaces the bodies of functions and methods by three dots, leaving documentation. -/
def stripBodies (t : SourceTree) (exported : Bool) : Except Failure SourceTree := do
  let stripped := (← definitions t).foldl (fun (t : SourceTree) (d, n?) =>
    match n? with
    | some n =>
      if n.kind != "function_definition" || (d.exported && !exported) then t
      else match bodyRange? n with
        | some (key, start, stop) => t.edit ("body:" ++ toString key) start stop (encode "...")
        | none => t
    | none => t) t
  stripped.reparse parseTree

/-- Clears the documentation of what is not exported. -/
def clearHidden (t : SourceTree) : Except Failure SourceTree := do
  let stripped := (← definitions t).foldl (fun (t : SourceTree) (d, _) =>
    if d.exported || (d.slot.clear.isNone && !d.slot.hasDoc) then t
    else t.edit d.slot.key d.slot.start d.slot.stop (renderDoc d.slot "")) t
  stripped.reparse parseTree

/-- Clears the string literal at the head of every definition's body. -/
def clearDocstrings (t : SourceTree) : Except Failure SourceTree :=
  (t.root.findAll ["function_definition", "class_definition"]).foldlM
    (fun (t : SourceTree) n => do
      let slot ← docstringSlot t n
      match slot.clear with
      | some text => return t.edit slot.key slot.start slot.stop text
      | none => return t) t

/-- Deletes the string literal at the head of the module. -/
def clearModuleDoc (t : SourceTree) : SourceTree :=
  match statements t.root with
  | doc :: _ =>
    if isDocstring doc then
      let stop := match afterFirst? t.root doc with
        | some n => n.start
        | none => t.code.lineEnd doc.stop
      t.edit "module-doc" doc.start stop []
    else t
  | [] => t

/-- Deletes all comments and documentation, or clears that of what is not exported. -/
def stripComments (t : SourceTree) (exported : Bool) : Except Failure SourceTree := do
  if !exported then clearHidden t
  else
    let t ← t.dropComments.reparse parseTree
    (clearModuleDoc (← clearDocstrings t)).reparse parseTree

/-- Applies one step of minification and reads the result anew. -/
def strip (t : SourceTree) (step : MinifyStep) : Except Failure SourceTree := do
  let t ← if step.bodies then stripBodies t step.exported else pure t
  if step.comments then stripComments t step.exported else pure t

end Docsmith.Python
