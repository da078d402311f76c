import Docsmith.Language.Basic
import Docsmith.Tokens

namespace Docsmith

open Text

/-!
# Minification to a budget

A prompt is some fixed text and a source, and has to keep within a budget of tokens.  When it does
not, the source is taken through the steps of minification, each on the output of the one before, up
to the first that fits.

* `Minifier`: a language, a way to count tokens, a budget and the steps.
* `Minifier.next`, `Minifier.extend`, `Minifier.stage`: a source after some of the steps.
* `StageCache`: the outputs that were found before, by source.
* `Minifier.minify`: the first output that fits.
-/

/-- How sources of a language are brought within a budget.  The preamble is counted with the source,
    `force` lets a source pass that no step makes fit, and `cached` remembers outputs. -/
structure Minifier where
  language : Language
  tokenizer : Tokenizer
  maxTokens : Int := defaultMaxTokens
  steps : List MinifyStep := MinifyStep.defaults
  preamble : String := ""
  force : Bool := false
  cached : Bool := false

/-- The outputs of the first steps, by source. -/
abbrev StageCache := List (Bytes × List Bytes)

namespace StageCache

/-- The outputs that are known of a source. -/
def get (c : StageCache) (code : Bytes) : List Bytes :=
  ((c.find? (·.1 == code)).map (·.2)).getD []

/-- Replaces the outputs of a source, or adds them. -/
def put (code : Bytes) (stages : List Bytes) : StageCache → StageCache
  | [] => [(code, stages)]
  | (k, old) :: rest => if k == code then (k, stages) :: rest else (k, old) :: put code stages rest

end StageCache

namespace Minifier

/-- The tokens of a source behind a preamble. -/
def count (m : Minifier) (code : Bytes) (preamble : String) : Except Failure Nat :=
  match decode code with
  | .ok s => .ok (m.tokenizer (preamble ++ s))
  | .error fault => .error (.notText fault)

/-- The output of the step after those whose outputs are given. -/
def next (m : Minifier) (code : Bytes) (stages : List Bytes) : Except Failure Bytes := do
  let tree ← m.language.parse (stages.getLast?.getD code)
  match m.steps[stages.length]? with
  | none => .error .noStep
  | some step => return (← m.language.strip tree step).render

/-- Adds the outputs of some more steps, as many as succeed, and the failure that stopped it. -/
def extend (m : Minifier) (code : Bytes) : Nat → List Bytes → List Bytes × Option Failure
  | 0, stages => (stages, none)
  | more + 1, stages =>
    match m.next code stages with
    | .ok out => extend m code more (stages ++ [out])
    | .error f => (stages, some f)

/-- The output after the steps up to an index, counted from the known outputs' end when it is
    negative, and the outputs that are known then. -/
def stageAt (m : Minifier) (code : Bytes) (index : Int) (stages : List Bytes) :
    Except Failure Bytes × List Bytes :=
  match index with
  | .ofNat i =>
    match m.extend code (i + 1 - stages.length) stages with
    | (stages, some f) => (.error f, stages)
    | (stages, none) =>
      match stages[i]? with
      | some out => (.ok out, stages)
      | none => (.error .noStage, stages)
  | .negSucc i =>
    match stages.reverse[i]? with
    | some out => (.ok out, stages)
    | none => (.error .noStage, stages)

/-- What is remembered after a call that knows some outputs of a source. -/
def remember (m : Minifier) (cache : StageCache) (code : Bytes) (stages : List Bytes) :
    StageCache :=
  if m.cached then cache.put code stages else cache

/-- A source after the steps up to an index. -/
def stage (m : Minifier) (cache : StageCache) (code : Bytes) (index : Int) :
    Except Failure Bytes × StageCache :=
  let (out, stages) := m.stageAt code index (cache.get code)
  (out, m.remember cache code stages)

/-- What becomes of a source that no step made fit: the last attempt if that is let pass. -/
def exhausted (m : Minifier) (tried : List Minification) (last : Minification) :
    Except Failure MinifyResult :=
  let result := { chosen := last, steps := tried }
  if m.force then .ok result else .error (.tooLarge m.maxTokens last.tokens result)

/-- Takes a source through the steps that are left, with those tried before and the outputs known of
    it.  `last` is the attempt before. -/
def tryFrom (m : Minifier) (code : Bytes) (preamble : String) :
    List MinifyStep → List Minification → Minification → List Bytes →
      Except Failure MinifyResult × List Bytes
  | [], tried, last, stages => (m.exhausted tried last, stages)
  | step :: rest, tried, _, stages =>
    match m.stageAt code tried.length stages with
    | (.error f, stages) => (.error f, stages)
    | (.ok out, stages) =>
      match m.count out preamble with
      | .error f => (.error f, stages)
      | .ok tokens =>
        let attempt : Minification :=
          { input := code, minified := out, tokens := tokens, step := some step }
        let tried := tried ++ [attempt]
        if tokens ≤ m.maxTokens then (.ok { chosen := attempt, steps := tried }, stages)
        else tryFrom m code preamble rest tried attempt stages

/-- A source after the first steps that bring it within the budget, none if it fits as it is. -/
def minify (m : Minifier) (cache : StageCache) (code : Bytes) (preamble : String) :
    Except Failure MinifyResult × StageCache :=
  match m.count code preamble with
  | .error f => (.error f, cache)
  | .ok tokens =>
    let whole : Minification := { input := code, minified := code, tokens := tokens }
    if code.isEmpty || tokens ≤ m.maxTokens || m.steps.isEmpty then (.ok { chosen := whole }, cache)
    else
      let (result, stages) := m.tryFrom code preamble m.steps [] whole (cache.get code)
      (result, m.remember cache code stages)

end Minifier

/-- The warning about a result that is over the budget after all steps. -/
def MinifyResult.warning? (r : MinifyResult) (maxTokens : Int) : Option String :=
  if !r.steps.isEmpty && maxTokens < r.chosen.tokens then
    some ("Source still has " ++ toString r.chosen.tokens ++ " tokens after minification (budget "
      ++ toString maxTokens ++ "), continuing anyway")
  else none

end Docsmith
