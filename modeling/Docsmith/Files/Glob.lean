namespace Docsmith

/-!
# Patterns of paths

A pattern matches a whole path.  A star matches any text, slashes included, a question mark any
character, and brackets one of some characters, or with an exclamation mark any other.

* `Glob.Piece`: a piece of a pattern.
* `Glob.compile`: the pieces of a pattern.
* `Glob.matchPieces`: the pieces match a text.
* `Glob.matchPath`: a pattern matches a path; a leading `**/` may also match nothing.
-/

namespace Glob

/-- One of some characters: a single one or those of a range. -/
inductive Member where
  | one (c : Char)
  | range (first last : Char)

/-- The member holds the character. -/
def Member.holds (c : Char) : Member → Bool
  | one d => c == d
  | range first last => first ≤ c && c ≤ last

/-- A piece of a pattern. -/
inductive Piece where
  | star
  | any
  | set (negated : Bool) (members : List Member)
  | char (c : Char)

/-- The piece matches the single character. -/
def Piece.holds (c : Char) : Piece → Bool
  | star => false
  | any => true
  | set negated members => (members.any (·.holds c)) != negated
  | char d => c == d

/-- The ends of a text, from the whole text to the empty one. -/
def suffixes : List Char → List (List Char)
  | [] => [[]]
  | c :: cs => (c :: cs) :: suffixes cs

/-- The pieces match the text. -/
def matchPieces : List Piece → List Char → Bool
  | [], cs => cs.isEmpty
  | .star :: ps, cs => (suffixes cs).any (matchPieces ps)
  | _ :: _, [] => false
  | p :: ps, c :: cs => p.holds c && matchPieces ps cs

/-- Cuts the text of a set at the hyphens that may stand for ranges: those with a character on each
    side that no range before has taken.  `acc` holds the chunk under way in reverse order, and
    `wait` the number of characters before a hyphen may cut again. -/
def chunks : Nat → List Char → List Char → List (List Char)
  | _, acc, [] => [acc.reverse]
  | 0, acc, c :: rest =>
    if c == '-' then acc.reverse :: chunks 2 [] rest else chunks 0 (c :: acc) rest
  | wait + 1, acc, c :: rest => chunks wait (c :: acc) rest

/-- A hyphen at the end of a set stands for itself. -/
def closeChunks (cs : List (List Char)) : List (List Char) :=
  match cs.reverse with
  | [] :: last :: before => ((last ++ ['-']) :: before).reverse
  | _ => cs

/-- Joins two neighbouring chunks whose range would be empty, dropping its ends; from the last pair
    to the first. -/
def dropEmptyRanges : List (List Char) → List (List Char)
  | [] => []
  | chunk :: rest =>
    match dropEmptyRanges rest with
    | next :: more =>
      match chunk.getLast?, next with
      | some a, b :: tail =>
        if b < a then (chunk.dropLast ++ tail) :: more else chunk :: next :: more
      | _, _ => chunk :: next :: more
    | [] => [chunk]

/-- The members of a set from what is left of a chunk and the chunks after it: neighbouring chunks
    are joined by a range. -/
def members (chunk : List Char) : List (List Char) → List Member
  | [] => chunk.map .one
  | next :: rest =>
    match chunk.getLast?, next with
    | some a, b :: tail => chunk.dropLast.map .one ++ .range a b :: members tail rest
    | _, _ => chunk.map .one ++ .one '-' :: members next rest

/-- The piece that a set stands for, by the text between its brackets. -/
def setPiece (body : List Char) : Piece :=
  let (negated, inner) := match body with
    | '!' :: rest => (true, rest)
    | rest => (false, rest)
  let cut := match inner with
    | [] => [[]]
    | c :: rest => closeChunks (chunks 0 [c] rest)
  match dropEmptyRanges cut with
  | [] => .set negated []
  | [[]] => if negated then .any else .set false []
  | chunk :: rest => .set negated (members chunk rest)

/-- The text of a set and the rest of the pattern after its closing bracket.  A bracket right after
    the opening one, or after the exclamation mark there, belongs to the text. -/
def setBody? (cs : List Char) : Option (List Char × List Char) :=
  let mark := if cs.head? == some '!' then 1 else 0
  let lead := if (cs.drop mark).head? == some ']' then mark + 1 else mark
  let inner := (cs.drop lead).takeWhile (· != ']')
  match cs.drop (lead + inner.length) with
  | _ :: rest => some (cs.take lead ++ inner, rest)
  | [] => none

/-- The pieces of a pattern.  The first argument bounds the number of pieces. -/
def compileFrom : Nat → List Char → List Piece
  | 0, _ => []
  | _ + 1, [] => []
  | steps + 1, c :: rest =>
    if c == '*' then .star :: compileFrom steps (rest.dropWhile (· == '*'))
    else if c == '?' then .any :: compileFrom steps rest
    else if c == '[' then
      match setBody? rest with
      | some (body, rest) => setPiece body :: compileFrom steps rest
      | none => .char '[' :: compileFrom steps rest
    else .char c :: compileFrom steps rest

/-- The pieces of a pattern. -/
def compile (pattern : List Char) : List Piece :=
  compileFrom (pattern.length + 1) pattern

/-- The pattern matches the whole text. -/
def matchWhole (pattern text : List Char) : Bool :=
  matchPieces (compile pattern) text

/-- The pattern matches, or what is left of it without some leading `**/` does. -/
def matchFrom (pattern text : List Char) : Bool :=
  matchWhole pattern text ||
    match pattern with
    | '*' :: '*' :: '/' :: rest => matchFrom rest text
    | _ => false

/-- The pattern matches the path. -/
def matchPath (pattern path : String) : Bool :=
  matchFrom pattern.toList path.toList

/-- One of the patterns matches the path. -/
def matchesAny (patterns : List String) (path : String) : Bool :=
  patterns.any (matchPath · path)

end Glob

end Docsmith
