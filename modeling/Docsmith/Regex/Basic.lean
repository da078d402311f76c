import Docsmith.Text.Blank
import Docsmith.Text.Case
import Docsmith.Text.Digit
import Docsmith.Text.Word

namespace Docsmith

open Text

/-!
# Regular expressions

Symbols are chosen by expressions that are searched for in their identifiers.

* `Regex`: an expression.
* `Regex.Spot`: a place in a text.
* `Regex.ends`: the places where a match that begins at a place can end.
* `Regex.search`: the expression matches somewhere in a text.
-/

/-- A class of characters inside an expression. -/
inductive CharClass where
  | char (c : Char)
  | range (first last : Char)
  | digit (negated : Bool)
  | blank (negated : Bool)
  | word (negated : Bool)

/-- A letter, digit or underscore. -/
def isWordChar (c : Char) : Bool := isNameRest c.toNat || (digitValue? c).isSome

/-- The class holds the character. -/
def CharClass.holds (c : Char) : CharClass → Bool
  | char d => c == d
  | range first last => first ≤ c && c ≤ last
  | digit negated => (digitValue? c).isSome != negated
  | blank negated => isBlank c != negated
  | word negated => isWordChar c != negated

/-- A regular expression.  A set may ignore the case of letters, `anyChar` may include line feeds,
    and the ends of lines count only when told so. -/
inductive Regex where
  | empty
  | never
  | set (negated ignoreCase : Bool) (classes : List CharClass)
  | anyChar (newlines : Bool)
  | seq (first second : Regex)
  | alt (first second : Regex)
  | group (inner : Regex)
  | many (inner : Regex) (least : Nat) (most : Option Nat)
  | lineStart (everyLine : Bool)
  | lineEnd (everyLine : Bool)
  | textStart
  | textEnd
  | boundary (negated : Bool)
  | ahead (negated : Bool) (inner : Regex)
  | behind (negated : Bool) (inner : Regex)

namespace Regex

/-- A place in a text: the characters before it, the nearest first, and those after it. -/
structure Spot where
  before : List Char
  after : List Char
deriving DecidableEq

/-- The place one character further on. -/
def Spot.next? (s : Spot) : Option (Char × Spot) :=
  match s.after with
  | [] => none
  | c :: rest => some (c, ⟨c :: s.before, rest⟩)

/-- The characters that stand for one when case is ignored. -/
def variants (ignoreCase : Bool) (c : Char) : List Char :=
  if ignoreCase then [c, lowerChar c, c.toUpper] else [c]

/-- A character is in a set. -/
def inSet (negated ignoreCase : Bool) (classes : List CharClass) (c : Char) : Bool :=
  ((variants ignoreCase c).any fun v => classes.any (·.holds v)) != negated

/-- A place on the border of a word. -/
def Spot.atBoundary (s : Spot) : Bool :=
  (s.before.head?.any isWordChar) != (s.after.head?.any isWordChar)

/-- Places without repetition. -/
def distinct (ss : List Spot) : List Spot :=
  ss.foldl (fun seen s => if seen.any (·.after.length == s.after.length) then seen else seen ++ [s])
    []

/-- The places after some more repetitions, together with those before. -/
def closure (step : Spot → List Spot) : Nat → List Spot → List Spot
  | 0, ss => ss
  | more + 1, ss =>
    let further := distinct (ss ++ ss.flatMap step)
    if further.length == ss.length then ss else closure step more further

/-- The places after a number of repetitions. -/
def times (step : Spot → List Spot) : Nat → List Spot → List Spot
  | 0, ss => ss
  | n + 1, ss => if ss.isEmpty then [] else times step n (distinct (ss.flatMap step))

/-- The place, if a condition holds. -/
def guardSpot (holds : Bool) (s : Spot) : List Spot := if holds then [s] else []

/-- The places before a place, from the nearest to the beginning of the text. -/
def backwards : List Char → List Char → List Spot
  | [], after => [⟨[], after⟩]
  | c :: before, after => ⟨c :: before, after⟩ :: backwards before (c :: after)

/-- The places where a match that begins at a place can end. -/
def ends : Regex → Spot → List Spot
  | empty, s => [s]
  | never, _ => []
  | set negated ignoreCase classes, s =>
    match s.next? with
    | some (c, t) => guardSpot (inSet negated ignoreCase classes c) t
    | none => []
  | anyChar newlines, s =>
    match s.next? with
    | some (c, t) => guardSpot (newlines || c != '\n') t
    | none => []
  | seq a b, s => distinct ((ends a s).flatMap (ends b))
  | alt a b, s => distinct (ends a s ++ ends b s)
  | group a, s => ends a s
  | many a least most, s =>
    let first := times (ends a) least [s]
    let more := match most with
      | some n => min (n - least) (s.after.length + 1)
      | none => s.after.length + 1
    closure (ends a) more first
  | lineStart everyLine, s =>
    guardSpot (s.before.isEmpty || (everyLine && s.before.head? == some '\n')) s
  | lineEnd everyLine, s =>
    guardSpot (s.after.isEmpty || s.after == ['\n'] || (everyLine && s.after.head? == some '\n')) s
  | textStart, s => guardSpot s.before.isEmpty s
  | textEnd, s => guardSpot s.after.isEmpty s
  | boundary negated, s =>
    guardSpot (!(s.before.isEmpty && s.after.isEmpty) && s.atBoundary != negated) s
  | ahead negated a, s => guardSpot ((ends a s).isEmpty == negated) s
  | behind negated a, s =>
    let found := (backwards s.before s.after).any fun t =>
      (ends a t).any (·.after.length == s.after.length)
    guardSpot (found != negated) s

/-- The places of a text, from its beginning to its end. -/
def spots : List Char → List Char → List Spot
  | before, [] => [⟨before, []⟩]
  | before, c :: rest => ⟨before, c :: rest⟩ :: spots (c :: before) rest

/-- The expression matches somewhere in the text. -/
def search (r : Regex) (text : String) : Bool :=
  (spots [] text.toList).any fun s => !(r.ends s).isEmpty

end Regex

end Docsmith
