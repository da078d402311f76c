import Docsmith.Source.Bytes

namespace Docsmith

/-!
# Steps of minification

* `MinifyStep`: what one step removes from a source.
* `MinifyStep.defaults`: the usual steps, each one removing more.
* `Minification`, `MinifyResult`: what became of a source.
-/

/-- One way to shrink a source: by the bodies of functions, or by documentation, of what is not
    exported or of everything. -/
structure MinifyStep where
  name : String
  bodies : Bool := false
  comments : Bool := false
  exported : Bool := false
deriving DecidableEq, Repr

/-- The usual steps; each runs on the output of the one before. -/
def MinifyStep.defaults : List MinifyStep :=
  [{ name := "unexported-bodies", bodies := true },
   { name := "unexported-comments", comments := true },
   { name := "exported-bodies", bodies := true, exported := true },
   { name := "all-comments", comments := true, exported := true }]

/-- A source after some step, or untouched, with the tokens of its prompt. -/
structure Minification where
  input : Bytes
  minified : Bytes
  tokens : Nat
  step : Option MinifyStep := none
deriving DecidableEq, Repr

/-- The minification that was chosen, and all that were tried. -/
structure MinifyResult where
  chosen : Minification
  steps : List Minification := []
deriving DecidableEq, Repr

/-- The code that was chosen. -/
def MinifyResult.code (r : MinifyResult) : Bytes := r.chosen.minified

end Docsmith
