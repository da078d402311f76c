import Docsmith.Language.Basic
import Docsmith.Proofs.Returns

namespace Docsmith

/-!
# How the work on a source can fail

Reading a Go or Python source, listing what it declares and shrinking it fail in few ways: the
source breaks the grammar, a part of it is no text, or a definition has no statement in its body.

* `Failure.InSource`: these failures.
* `Go.declarations_fails`, `Go.strip_fails`, `Python.definitions_fails`, `Python.strip_fails`: the
  work on a source fails with one of them only.
-/

/-- The failure lies in a source: in its grammar, in its text, or in a body without a statement. -/
def Failure.InSource : Failure → Prop
  | .unparsable .. | .notText _ | .emptyBody => True
  | _ => False

/-- The computation fails only by the source that it works on. -/
abbrev FailsInSource {α : Type} (x : Except Failure α) : Prop := Fails x Failure.InSource

namespace Language

theorem go_parse : go.parse = Go.parseTree := by
  simp only [go]

theorem go_strip : go.strip = Go.strip := by
  simp only [go]

theorem python_parse : python.parse = Python.parseTree := by
  simp only [python]

theorem python_strip : python.strip = Python.strip := by
  simp only [python]

end Language

namespace SourceTree

theorem textBetween_fails (code : Bytes) (start stop : Int) :
    FailsInSource (textBetween code start stop) := by
  unfold textBetween
  split
  · exact .pure _
  · exact .error trivial

theorem textOf_fails (t : SourceTree) (n : Option Node) : FailsInSource (t.textOf n) := by
  cases n with
  | none => exact .pure _
  | some n => exact textBetween_fails _ _ _

/-- Reading a source anew fails like reading one. -/
theorem reparse_fails {parse : Bytes → Except Failure SourceTree}
    (h : ∀ code, FailsInSource (parse code)) (t : SourceTree) :
    FailsInSource (t.reparse parse) := by
  unfold reparse
  split
  · exact h _
  · exact .pure _

end SourceTree

/-! ### Go -/

namespace Go

open SourceTree

theorem parseTree_fails (code : Bytes) : FailsInSource (parseTree code) := by
  unfold parseTree
  split
  · exact .pure _
  · exact .error trivial

theorem function_fails (t : SourceTree) (before : List Node) (n : Node) :
    FailsInSource (function t before n) :=
  (textOf_fails t _).bind fun _ => .pure _

theorem method_fails (t : SourceTree) (before : List Node) (n : Node) :
    FailsInSource (method t before n) := by
  have hreceiver : FailsInSource (receiver t n) := by
    unfold receiver
    dsimp only
    split
    · exact .pure _
    · exact (textOf_fails t _).bind fun _ => .pure _
  refine hreceiver.bind fun owner => ?_
  split
  · exact .pure _
  · exact (textOf_fails t _).bind fun _ => .pure _

theorem interfaceMethods_fails (t : SourceTree) (owner : String) (body : Node) :
    FailsInSource (interfaceMethods t owner body) :=
  .mapM fun _ _ => (textOf_fails t _).bind fun _ => .pure _

theorem typeSpec_fails (t : SourceTree) (keyword : String) (slot : DocSlot) (spec : Node) :
    FailsInSource (typeSpec t keyword slot spec) := by
  refine (textOf_fails t _).bind fun name => ?_
  dsimp only
  split
  · split
    · exact (interfaceMethods_fails t name _).bind fun _ => .pure _
    · exact .pure _
  · exact .pure _

theorem valueSpec_fails (t : SourceTree) (keyword : String) (slot : DocSlot) (spec : Node) :
    FailsInSource (valueSpec t keyword slot spec) := by
  have hnames : FailsInSource ((spec.childrenIn "name").mapM fun n => t.textOf (some n)) :=
    .mapM fun _ _ => textOf_fails t _
  refine hnames.bind fun names => ?_
  split <;> exact .pure _

theorem group_fails (t : SourceTree) (keyword : String) (before : List Node) (decl : Node) :
    FailsInSource (group t keyword before decl) := by
  refine Fails.bind (.mapM fun member _ => ?_) fun _ => .pure _
  dsimp only
  split
  · exact typeSpec_fails _ _ _ _
  · exact valueSpec_fails _ _ _ _

theorem topLevel_fails (t : SourceTree) (before : List Node) (n : Node) :
    FailsInSource (topLevel t before n) := by
  unfold topLevel
  split
  · exact (function_fails t before n).bind fun _ => .pure _
  split
  · exact (method_fails t before n).bind fun _ => .pure _
  split
  · exact group_fails _ _ _ _
  split
  · exact group_fails _ _ _ _
  split
  · exact group_fails _ _ _ _
  · exact .pure _

/-- What a Go source declares cannot be listed only by the source. -/
theorem declarations_fails (t : SourceTree) : FailsInSource (declarations t) :=
  Fails.bind (.mapM fun _ _ => topLevel_fails _ _ _) fun _ => .pure _

theorem losesBody_fails (t : SourceTree) (exported : Bool) (n : Node) :
    FailsInSource (losesBody t exported n) := by
  unfold losesBody
  dsimp only
  split
  · exact ((function_fails t [] n).map _).bind fun _ => .pure _
  split
  · exact (method_fails t [] n).bind fun _ => .pure _
  · exact .pure _

theorem stripBodies_fails (t : SourceTree) (exported : Bool) :
    FailsInSource (stripBodies t exported) := by
  refine Fails.bind (.foldlM _ (fun t n => ?_) t) fun _ => reparse_fails parseTree_fails _
  refine (losesBody_fails t exported n).bind fun loses => ?_
  split
  · split <;> exact .pure _
  · exact .pure _

theorem stripComments_fails (t : SourceTree) (exported : Bool) :
    FailsInSource (stripComments t exported) := by
  unfold stripComments
  dsimp only
  split
  · exact reparse_fails parseTree_fails _
  · exact (declarations_fails t).bind fun _ => reparse_fails parseTree_fails _

/-- A step takes bodies, and then comments, each if it is told to. -/
theorem strip_eq (t : SourceTree) (step : MinifyStep) :
    strip t step = (if step.bodies then stripBodies t step.exported else pure t) >>= fun t =>
      if step.comments then stripComments t step.exported else pure t := by
  unfold strip
  cases step.bodies <;> cases step.comments <;> rfl

/-- A step on a Go source fails only by the source. -/
theorem strip_fails (t : SourceTree) (step : MinifyStep) : FailsInSource (strip t step) := by
  rw [strip_eq]
  refine Fails.bind ?_ fun t => ?_
  · split
    · exact stripBodies_fails t _
    · exact .pure t
  · split
    · exact stripComments_fails t _
    · exact .pure t

end Go

/-! ### Python -/

namespace Python

open SourceTree

theorem parseTree_fails (code : Bytes) : FailsInSource (parseTree code) := by
  unfold parseTree
  split
  · exact .pure _
  · exact .error trivial

theorem literalSlot_fails (t : SourceTree) (indent : String) (inline : Bool) (block first : Node) :
    FailsInSource (literalSlot t indent inline block first) := by
  refine Fails.bind (.mapM fun _ _ => textOf_fails t _) fun texts => ?_
  dsimp only
  exact (textBetween_fails _ _ _).bind fun _ => .pure _

theorem docstringSlot_fails (t : SourceTree) (definition : Node) :
    FailsInSource (docstringSlot t definition) := by
  unfold docstringSlot
  dsimp only
  split
  · split
    · exact literalSlot_fails _ _ _ _ _
    · split <;> exact .pure _
  · exact .error trivial

theorem unwrap_fails (t : SourceTree) (n : Node) : FailsInSource (unwrap t n) := by
  have hnames : FailsInSource (decoratorNames t n) := .mapM fun _ _ => (textOf_fails t _).map _
  unfold unwrap
  dsimp only
  split
  · refine hnames.bind fun names => Fails.bind (.pure _) fun found => ?_
    split <;> exact .pure _
  · refine Fails.bind (.pure _) fun found => ?_
    split <;> exact .pure _

theorem declaration_fails (t : SourceTree) (kind : DeclKind) (name owner : String)
    (outer definition : Node) : FailsInSource (declaration t kind name owner outer definition) :=
  (docstringSlot_fails t definition).bind fun _ => .pure _

theorem member_fails (t : SourceTree) (owner : String) (n : Node) :
    FailsInSource (member t owner n) := by
  refine (unwrap_fails t n).bind fun found => ?_
  split
  · exact .pure _
  · split
    · exact .pure _
    split
    · exact .pure _
    · refine (textOf_fails t _).bind fun _ => ?_
      exact (declaration_fails _ _ _ _ _ _).bind fun _ => .pure _

theorem classDeclarations_fails (t : SourceTree) (outer cls : Node) :
    FailsInSource (classDeclarations t outer cls) := by
  refine (textOf_fails t _).bind fun owner => (declaration_fails _ _ _ _ _ _).bind fun decl => ?_
  exact Fails.bind (.filterMapM fun _ _ => member_fails _ _ _) fun _ => .pure _

theorem values_fails (t : SourceTree) (before : List Node) (stmt : Node) :
    FailsInSource (values t before stmt) := by
  refine Fails.bind (.mapM fun _ _ => textOf_fails t _) fun texts => ?_
  split <;> exact .pure _

theorem topLevel_fails (t : SourceTree) (before : List Node) (n : Node) :
    FailsInSource (topLevel t before n) := by
  unfold topLevel
  split
  · exact (values_fails t before n).bind fun _ => .pure _
  · refine (unwrap_fails t n).bind fun found => ?_
    split
    · exact .pure _
    · split
      · refine (textOf_fails t _).bind fun _ => ?_
        exact (declaration_fails _ _ _ _ _ _).bind fun _ => .pure _
      · exact classDeclarations_fails _ _ _

theorem definitions_fails (t : SourceTree) : FailsInSource (definitions t) :=
  Fails.bind (.mapM fun _ _ => topLevel_fails _ _ _) fun _ => .pure _

theorem clearDocstrings_fails (t : SourceTree) : FailsInSource (clearDocstrings t) := by
  refine .foldlM _ (fun t n => ?_) t
  refine (docstringSlot_fails t n).bind fun slot => ?_
  split <;> exact .pure _

theorem stripComments_fails (t : SourceTree) (exported : Bool) :
    FailsInSource (stripComments t exported) := by
  unfold stripComments
  split
  · exact (definitions_fails t).bind fun _ => reparse_fails parseTree_fails _
  · refine (reparse_fails parseTree_fails _).bind fun t => ?_
    exact (clearDocstrings_fails t).bind fun _ => reparse_fails parseTree_fails _

theorem stripBodies_fails (t : SourceTree) (exported : Bool) :
    FailsInSource (stripBodies t exported) :=
  (definitions_fails t).bind fun _ => reparse_fails parseTree_fails _

/-- A step takes bodies, and then comments, each if it is told to. -/
theorem strip_eq (t : SourceTree) (step : MinifyStep) :
    strip t step = (if step.bodies then stripBodies t step.exported else pure t) >>= fun t =>
      if step.comments then stripComments t step.exported else pure t := by
  unfold strip
  cases step.bodies <;> cases step.comments <;> rfl

/-- A step on a Python source fails only by the source. -/
theorem strip_fails (t : SourceTree) (step : MinifyStep) : FailsInSource (strip t step) := by
  rw [strip_eq]
  refine Fails.bind ?_ fun t => ?_
  · split
    · exact stripBodies_fails t _
    · exact .pure t
  · split
    · exact stripComments_fails t _
    · exact .pure t

end Python

end Docsmith
