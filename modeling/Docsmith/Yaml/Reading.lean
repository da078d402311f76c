import Docsmith.Yaml.Scalar

namespace Docsmith

/-!
# Reading settings documents

A settings document is made of block mappings and lists, told by indentation, of lists and mappings
in brackets, of scalars with and without quotes, and of blocks of text.

* `Yaml`: the content of a document.
* `Yaml.toJson`: the content as a structured value.
* `Yaml.parse?`: the content of a text.
-/

/-- The content of a document. -/
inductive Yaml where
  | scalar (value : Json)
  | sequence (items : List Yaml)
  | mapping (pairs : List (Yaml × Yaml))

namespace Yaml

mutual

/-- The content as a structured value; the last of two pairs with one key counts. -/
def toJson : Yaml → Json
  | scalar value => value
  | sequence items => .list (itemsJson items)
  | mapping pairs => .object (pairsJson [] pairs)

/-- Items as structured values. -/
def itemsJson : List Yaml → List Json
  | [] => []
  | y :: rest => toJson y :: itemsJson rest

/-- Pairs as fields behind others. -/
def pairsJson (before : List (String × Json)) : List (Yaml × Yaml) → List (String × Json)
  | [] => before
  | (k, v) :: rest => pairsJson (Json.put (keyText k) (toJson v) before) rest

/-- The key of a pair as a name. -/
def keyText : Yaml → String
  | scalar (.text s) => s
  | scalar value => value.display
  | sequence items => (Json.list (itemsJson items)).display
  | mapping pairs => (Json.object (pairsJson [] pairs)).display

end

/-! ### Lines -/

/-- The lines of a text, without their ends. -/
def splitLines : List Char → List (List Char)
  | [] => [[]]
  | c :: rest =>
    if c == '\n' then [] :: splitLines rest
    else match splitLines rest with
      | line :: lines => (c :: line) :: lines
      | [] => [[c]]

/-- Lines as one text. -/
def joinLines : List (List Char) → List Char
  | [] => []
  | [line] => line
  | line :: rest => line ++ '\n' :: joinLines rest

/-- The number of blanks before a line. -/
def indentOf (line : List Char) : Nat := (line.takeWhile (· == ' ')).length

/-- A line without the blanks before it. -/
def contentOf (line : List Char) : List Char := line.dropWhile (· == ' ')

/-- The text holds nothing, or a comment only. -/
def isIdle (line : List Char) : Bool :=
  match contentOf line with
  | [] => true
  | c :: _ => c == '#'

/-- The lines from the first one on that holds something. -/
def skipIdle (lines : List (List Char)) : List (List Char) := lines.dropWhile isIdle

/-- A text without blanks at its end. -/
def trimEnd (cs : List Char) : List Char := (cs.reverse.dropWhile (· == ' ')).reverse

/-- A mark that stands before this text ends there. -/
def endsMark : List Char → Bool
  | [] => true
  | c :: _ => c == ' ' || c == '\t' || c == '\n'

/-- The text begins an item of a list. -/
def isEntry : List Char → Bool
  | '-' :: rest => endsMark rest
  | _ => false

/-- The text that breaks between lines stand for, when some empty lines lie between them. -/
def foldedBreak (empty : Nat) : List Char :=
  if empty == 0 then [' '] else List.replicate empty '\n'

/-! ### Scalars in quotes -/

/-- Passes over a break between lines and the blanks around it, and tells how many empty lines it
    holds.  The first argument bounds the number of steps. -/
def skipBreaks : Nat → List Char → Nat × List Char
  | 0, cs => (0, cs)
  | steps + 1, cs =>
    let rest := cs.dropWhile fun c => c == ' ' || c == '\t'
    match rest with
    | '\n' :: more =>
      let (n, out) := skipBreaks steps more
      (n + 1, out)
    | _ => (0, rest)

/-- The characters that a letter after a backslash stands for. -/
def escaped? (c : Char) : Option Char :=
  if c == '0' then some (Char.ofNat 0)
  else if c == 'a' then some (Char.ofNat 0x07)
  else if c == 'b' then some (Char.ofNat 0x08)
  else if c == 't' || c == '\t' then some '\t'
  else if c == 'n' then some '\n'
  else if c == 'v' then some (Char.ofNat 0x0b)
  else if c == 'f' then some (Char.ofNat 0x0c)
  else if c == 'r' then some '\r'
  else if c == 'e' then some (Char.ofNat 0x1b)
  else if c == ' ' || c == '"' || c == '\\' || c == '/' then some c
  else if c == 'N' then some (Char.ofNat 0x85)
  else if c == '_' then some (Char.ofNat 0xa0)
  else if c == 'L' then some (Char.ofNat 0x2028)
  else if c == 'P' then some (Char.ofNat 0x2029)
  else none

/-- The number of hexadecimal digits after a letter behind a backslash. -/
def codeLength? (c : Char) : Option Nat :=
  if c == 'x' then some 2 else if c == 'u' then some 4 else if c == 'U' then some 8 else none

/-- Reads a scalar in quotes after the opening quote.  The first argument bounds the number of
    steps. -/
def quoted (mark : Char) : Nat → List Char → Option (List Char × List Char)
  | 0, _ => none
  | steps + 1, cs =>
    let also (before : List Char) (rest : List Char) : Option (List Char × List Char) :=
      (quoted mark steps rest).map fun (text, rest) => (before ++ text, rest)
    match cs with
    | [] => none
    | c :: rest =>
      if c == mark then
        match rest with
        | d :: more => if mark == '\'' && d == mark then also ['\''] more else some ([], rest)
        | [] => some ([], [])
      else if mark == '"' && c == '\\' then
        match rest with
        | [] => none
        | '\n' :: more =>
          let (empty, more) := skipBreaks more.length more
          also (List.replicate empty '\n') more
        | d :: more =>
          match codeLength? d with
          | some n =>
            if more.length < n then none
            else (inBase? 16 (more.take n)).bind fun code => also [Char.ofNat code] (more.drop n)
          | none => (escaped? d).bind fun x => also [x] more
      else if c == ' ' || c == '\t' || c == '\n' then
        let blanks := cs.takeWhile fun c => c == ' ' || c == '\t'
        match cs.drop blanks.length with
        | '\n' :: more =>
          let (empty, more) := skipBreaks more.length more
          also (foldedBreak empty) more
        | more => also blanks more
      else also [c] rest

/-! ### Scalars without quotes -/

/-- The marks of lists and mappings in brackets. -/
def bracketMarks : List Char := [',', '[', ']', '\x7b', '\x7d']

/-- The marks that no plain scalar begins with. -/
def openingMarks : List Char :=
  bracketMarks ++ [' ', '\t', '\n', '#', '&', '*', '!', '|', '>', '\'', '"', '%', '@', '\x60']

/-- The part of a plain scalar on one line, and what follows it: a colon that ends there, a comment,
    a bracket or comma when the scalar stands in brackets, or the end of the line. -/
def plainLine (inBrackets : Bool) (afterBlank : Bool) : List Char → List Char × List Char
  | [] => ([], [])
  | c :: rest =>
    let ends := c == '\n' || (c == '#' && afterBlank)
      || (c == ':' && (endsMark rest || (inBrackets && rest.head?.any bracketMarks.contains)))
      || (inBrackets && ('?' :: bracketMarks).contains c)
    if ends then ([], c :: rest)
    else
      let (text, out) := plainLine inBrackets (c == ' ' || c == '\t') rest
      (c :: text, out)

/-- A plain scalar may begin here. -/
def startsPlain (inBrackets : Bool) : List Char → Bool
  | [] => false
  | c :: rest =>
    if c == '-' || c == '?' || c == ':' then
      !endsMark rest && (c == '-' || !inBrackets)
    else !openingMarks.contains c

/-- Reads a plain scalar in brackets, which may go on over lines.  The first argument bounds the
    number of steps. -/
def plainInBrackets : Nat → List Char → List Char × List Char
  | 0, cs => ([], cs)
  | steps + 1, cs =>
    let (text, rest) := plainLine true false cs
    let text := trimEnd text
    match rest with
    | '\n' :: more =>
      let (empty, next) := skipBreaks more.length more
      if startsPlain true next then
        let (later, out) := plainInBrackets steps next
        (text ++ foldedBreak empty ++ later, out)
      else (text, next)
    | _ => (text, rest)

/-- Goes on with a plain scalar over the lines that are indented more than `parent`.  The first
    argument bounds the number of steps. -/
def plainBelow (parent : Int) : Nat → List Char → List (List Char) →
    Option (List Char × List (List Char))
  | 0, text, lines => some (text, lines)
  | steps + 1, text, lines =>
    let next := lines.dropWhile fun l => (contentOf l).isEmpty
    match next with
    | [] => some (text, lines)
    | line :: rest =>
      let content := contentOf line
      if parent < indentOf line && content.head? != some '#' then
        match plainLine false false content with
        | (more, []) =>
          plainBelow parent steps (text ++ foldedBreak (lines.length - next.length) ++ trimEnd more)
            rest
        | (more, '#' :: _) =>
          some (text ++ foldedBreak (lines.length - next.length) ++ trimEnd more, rest)
        | _ => none
      else some (text, lines)

/-! ### Brackets -/

/-- Passes over blanks, breaks between lines and comments. -/
def skipGaps (inComment : Bool) : List Char → List Char
  | [] => []
  | c :: rest =>
    if c == '\n' then skipGaps false rest
    else if inComment || c == '#' then skipGaps true rest
    else if c == ' ' || c == '\t' then skipGaps false rest
    else c :: rest

mutual

/-- Reads a scalar, or a list or mapping in brackets.  The first argument bounds the number of
    steps. -/
def node : Nat → List Char → Option (Yaml × List Char)
  | 0, _ => none
  | steps + 1, cs =>
    match cs with
    | '[' :: rest => (items steps rest).map fun (ys, rest) => (.sequence ys, rest)
    | '\x7b' :: rest => (pairsIn steps rest).map fun (ps, rest) => (.mapping ps, rest)
    | '"' :: rest =>
      (quoted '"' (rest.length + 1) rest).map fun (s, rest) =>
        (.scalar (.text (String.ofList s)), rest)
    | '\'' :: rest =>
      (quoted '\'' (rest.length + 1) rest).map fun (s, rest) =>
        (.scalar (.text (String.ofList s)), rest)
    | cs =>
      if startsPlain true cs then
        let (s, rest) := plainInBrackets cs.length cs
        some (.scalar (resolve s), rest)
      else none

/-- Reads the items of a list up to its closing bracket. -/
def items : Nat → List Char → Option (List Yaml × List Char)
  | 0, _ => none
  | steps + 1, cs =>
    match skipGaps false cs with
    | ']' :: rest => some ([], rest)
    | cs =>
      match node steps cs with
      | none => none
      | some (y, rest) =>
        match valueIn steps (skipGaps false rest) with
        | none => none
        | some (value, rest) =>
          let y := match value with
            | some v => .mapping [(y, v)]
            | none => y
          match skipGaps false rest with
          | ',' :: rest => (items steps rest).map fun (ys, rest) => (y :: ys, rest)
          | ']' :: rest => some ([y], rest)
          | _ => none

/-- Reads the pairs of a mapping up to its closing brace. -/
def pairsIn : Nat → List Char → Option (List (Yaml × Yaml) × List Char)
  | 0, _ => none
  | steps + 1, cs =>
    match skipGaps false cs with
    | '\x7d' :: rest => some ([], rest)
    | cs =>
      match node steps cs with
      | none => none
      | some (k, rest) =>
        match valueIn steps (skipGaps false rest) with
        | none => none
        | some (value, rest) =>
          let pair := (k, value.getD (.scalar .null))
          match skipGaps false rest with
          | ',' :: rest => (pairsIn steps rest).map fun (ps, rest) => (pair :: ps, rest)
          | '\x7d' :: rest => some ([pair], rest)
          | _ => none

/-- Reads the value after a key in brackets, if a colon follows it. -/
def valueIn : Nat → List Char → Option (Option Yaml × List Char)
  | 0, _ => none
  | steps + 1, cs =>
    match cs with
    | ':' :: rest =>
      match skipGaps false rest with
      | [] => none
      | c :: more =>
        if [',', ']', '\x7d'].contains c then some (some (.scalar .null), c :: more)
        else (node steps (c :: more)).map fun (y, rest) => (some y, rest)
    | cs => some (none, cs)

end

/-! ### Blocks of text -/

/-- How a block of text is read: whether breaks between its lines are folded, whether the breaks at
    its end are dropped or kept, and its indentation if it is given. -/
structure TextStyle where
  folded : Bool
  strips : Bool := false
  keeps : Bool := false
  indent : Option Nat := none

/-- The style that the marks after the first one give; none when they are no such marks. -/
def TextStyle.read? (style : TextStyle) : List Char → Option TextStyle
  | [] => some style
  | c :: rest =>
    if c == '-' then TextStyle.read? { style with strips := true } rest
    else if c == '+' then TextStyle.read? { style with keeps := true } rest
    else if '1' ≤ c && c ≤ '9' then
      TextStyle.read? { style with indent := some (c.toNat - 0x30) } rest
    else if c == ' ' && isIdle rest then some style
    else none

/-- A line that is empty at an indentation. -/
def isEmptyAt (indent : Nat) (line : List Char) : Bool :=
  line.all (· == ' ') && line.length ≤ indent

/-- Reads the lines of a block of text at an indentation.  `breaks` are the empty lines before the
    next one. -/
def textLines (style : TextStyle) (indent : Nat) (breaks : List Char) :
    List (List Char) → List Char × List (List Char)
  | [] => ([], [])
  | line :: rest =>
    if isEmptyAt indent line then
      if rest.isEmpty then (if style.keeps then breaks else [], [])
      else textLines style indent ('\n' :: breaks) rest
    else if indent ≤ indentOf line then
      let text := line.drop indent
      let next := rest.dropWhile (isEmptyAt indent)
      let goesOn := next.head?.any fun l => indent ≤ indentOf l
      let leads (l : List Char) : Bool := l.head?.any fun c => c != ' ' && c != '\t'
      let ending :=
        if rest.isEmpty then []
        else if goesOn then
          if style.folded && leads text && leads ((next.headD []).drop indent) then
            (if next.length == rest.length then [' '] else [])
          else ['\n']
        else if style.strips then [] else ['\n']
      let (later, out) := textLines style indent [] rest
      (breaks ++ text ++ ending ++ later, out)
    else (if style.keeps then breaks else [], line :: rest)

/-- The indentation of a block of text inside a node at `parent`. -/
def textIndent (style : TextStyle) (parent : Int) (lines : List (List Char)) : Nat :=
  let least := max 1 (parent + 1).toNat
  match style.indent with
  | some n => least + n - 1
  | none =>
    let empty := lines.takeWhile fun l => l.all (· == ' ')
    let first := (lines.drop empty.length).head?
    max least (((first.toList ++ empty).map indentOf).foldl max 0)

/-- Reads a block of text after its first mark. -/
def textBlock (parent : Int) (folded : Bool) (marks : List Char) (lines : List (List Char)) :
    Option (Yaml × List (List Char)) :=
  (TextStyle.read? { folded := folded } marks).map fun style =>
    let (text, rest) := textLines style (textIndent style parent lines) [] lines
    (.scalar (.text (String.ofList text)), rest)

/-! ### Blocks -/

/-- Splits a line into a key and what follows its colon. -/
def splitKey? (content : List Char) : Option (Yaml × List Char) :=
  let (key, rest) := match content with
    | '"' :: cs => match quoted '"' (cs.length + 1) cs with
      | some (s, rest) => (some (.scalar (.text (String.ofList s))), contentOf rest)
      | none => (none, [])
    | '\'' :: cs => match quoted '\'' (cs.length + 1) cs with
      | some (s, rest) => (some (.scalar (.text (String.ofList s))), contentOf rest)
      | none => (none, [])
    | cs =>
      if startsPlain false cs then
        let (s, rest) := plainLine false false cs
        (some (.scalar (resolve (trimEnd s))), rest)
      else (none, [])
  match key, rest with
  | some k, ':' :: value => if endsMark value then some (k, value) else none
  | _, _ => none

/-- Reads a node that begins on a line inside a node at `parent`, and may go on over the lines after
    it. -/
def inlineNode (parent : Int) (content : List Char) (lines : List (List Char)) :
    Option (Yaml × List (List Char)) :=
  match content with
  | '|' :: marks => textBlock parent false marks lines
  | '>' :: marks => textBlock parent true marks lines
  | c :: _ =>
    if ['"', '\'', '[', '\x7b'].contains c then
      let cs := joinLines (content :: lines)
      match node (cs.length + 1) cs with
      | none => none
      | some (y, rest) =>
        match splitLines rest with
        | line :: lines => if isIdle line then some (y, lines) else none
        | [] => some (y, [])
    else if startsPlain false content then
      match plainLine false false content with
      | (text, []) =>
        (plainBelow parent (lines.length + 1) (trimEnd text) lines).map fun (text, lines) =>
          (.scalar (resolve text), lines)
      | (text, '#' :: _) => some (.scalar (resolve (trimEnd text)), lines)
      | _ => none
    else none
  | [] => some (.scalar .null, lines)

/-- A line with its first mark blanked. -/
def blankMark (line : List Char) : List Char :=
  let indent := indentOf line
  line.take indent ++ ' ' :: line.drop (indent + 1)

mutual

/-- Reads a node whose lines are indented more than `parent`.  The first argument bounds the number
    of steps. -/
def block : Nat → Int → List (List Char) → Option (Yaml × List (List Char))
  | 0, _, _ => none
  | steps + 1, parent, lines =>
    match skipIdle lines with
    | [] => some (.scalar .null, [])
    | line :: rest =>
      let content := contentOf line
      if indentOf line ≤ parent then some (.scalar .null, line :: rest)
      else if isEntry content then
        (entries steps (indentOf line) (line :: rest)).map fun (ys, out) => (.sequence ys, out)
      else if (splitKey? content).isSome then
        (pairs steps (indentOf line) (line :: rest)).map fun (ps, out) => (.mapping ps, out)
      else inlineNode parent content rest

/-- Reads the items of a list at an indentation. -/
def entries : Nat → Nat → List (List Char) → Option (List Yaml × List (List Char))
  | 0, _, _ => none
  | steps + 1, indent, lines =>
    match skipIdle lines with
    | [] => some ([], [])
    | line :: rest =>
      if indentOf line == indent && isEntry (contentOf line) then
        match block steps indent (blankMark line :: rest) with
        | none => none
        | some (y, out) => (entries steps indent out).map fun (ys, out) => (y :: ys, out)
      else some ([], line :: rest)

/-- Reads the pairs of a mapping at an indentation. -/
def pairs : Nat → Nat → List (List Char) → Option (List (Yaml × Yaml) × List (List Char))
  | 0, _, _ => none
  | steps + 1, indent, lines =>
    match skipIdle lines with
    | [] => some ([], [])
    | line :: rest =>
      if indentOf line == indent then
        match splitKey? (contentOf line) with
        | none => some ([], line :: rest)
        | some (k, value) =>
          match valueOf steps indent (contentOf value) rest with
          | none => none
          | some (v, out) => (pairs steps indent out).map fun (ps, out) => ((k, v) :: ps, out)
      else some ([], line :: rest)

/-- Reads the value of a key at an indentation: on its line, or on the lines below, where the items
    of a list need not be indented more. -/
def valueOf : Nat → Nat → List Char → List (List Char) → Option (Yaml × List (List Char))
  | 0, _, _, _ => none
  | steps + 1, indent, content, lines =>
    if !isIdle content then inlineNode indent content lines
    else match skipIdle lines with
      | [] => some (.scalar .null, [])
      | line :: rest =>
        if indentOf line == indent && isEntry (contentOf line) then
          (entries steps indent (line :: rest)).map fun (ys, out) => (.sequence ys, out)
        else block steps indent (line :: rest)

end

/-- Every way to end a line as a line feed. -/
def unifyBreaks : List Char → List Char
  | [] => []
  | '\r' :: '\n' :: rest => '\n' :: unifyBreaks rest
  | '\r' :: rest => '\n' :: unifyBreaks rest
  | c :: rest => c :: unifyBreaks rest

/-- The lines of a document, without the marks at its beginning and end. -/
def documentLines (cs : List Char) : List (List Char) :=
  let cs := if cs.head? == some (Char.ofNat 0xfeff) then cs.drop 1 else cs
  let lines := splitLines (unifyBreaks cs)
  let ends (mark line : List Char) : Bool := line.take 3 == mark && endsMark (line.drop 3)
  let lines := match skipIdle lines with
    | line :: rest =>
      if ends ['-', '-', '-'] line then (' ' :: ' ' :: ' ' :: line.drop 3) :: rest else line :: rest
    | [] => []
  lines.takeWhile fun l => !ends ['.', '.', '.'] l

/-- The content of a text; none when it is not well-formed. -/
def parse? (s : String) : Option Yaml :=
  match block (3 * s.length + 3) (-1) (documentLines s.toList) with
  | some (y, rest) => if (skipIdle rest).isEmpty then some y else none
  | none => none

end Yaml

end Docsmith
