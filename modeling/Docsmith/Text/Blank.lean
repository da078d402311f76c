namespace Docsmith.Text

/-!
# Blank characters and words

Text is trimmed, split into words and split into paragraphs at the white space of the Unicode
standard, the information separators included.

* `isBlank`: the class of white-space characters.
* `trim`: a text without the blanks at its ends.
* `words`: the maximal blank-free pieces of a text, in order.
* `isBlankText`: a text of blanks only.
-/

/-- The character is white space. -/
def isBlank (c : Char) : Bool :=
  let n := c.toNat
  if n < 0x80 then (0x09 ≤ n && n ≤ 0x0d) || (0x1c ≤ n && n ≤ 0x20)
  else n == 0x85 || n == 0xa0 || n == 0x1680 || (0x2000 ≤ n && n ≤ 0x200a) || n == 0x2028
    || n == 0x2029 || n == 0x202f || n == 0x205f || n == 0x3000

/-- The characters after the leading blanks. -/
def trimLeftChars (cs : List Char) : List Char :=
  cs.dropWhile isBlank

/-- The characters before the trailing blanks. -/
def trimRightChars (cs : List Char) : List Char :=
  (cs.reverse.dropWhile isBlank).reverse

/-- The characters between the leading and the trailing blanks. -/
def trimChars (cs : List Char) : List Char :=
  trimRightChars (trimLeftChars cs)

/-- The text without blanks at its ends. -/
def trim (s : String) : String :=
  String.ofList (trimChars s.toList)

/-- The text has no character but blanks. -/
def isBlankText (s : String) : Bool :=
  s.toList.all isBlank

/-- Splits off words, with the letters of the word under way in reverse order. -/
def wordsFrom : List Char → List Char → List (List Char)
  | [], [] => []
  | c :: acc, [] => [(c :: acc).reverse]
  | acc, c :: rest =>
    if isBlank c then
      match acc with
      | [] => wordsFrom [] rest
      | _ :: _ => acc.reverse :: wordsFrom [] rest
    else wordsFrom (c :: acc) rest

/-- The maximal pieces without a blank, in order. -/
def wordsOf (cs : List Char) : List (List Char) :=
  wordsFrom [] cs

/-- The words of a text. -/
def words (s : String) : List String :=
  (wordsOf s.toList).map String.ofList

end Docsmith.Text
