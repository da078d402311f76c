import Docsmith.Number.Number
import Docsmith.Text.Quoted

namespace Docsmith

/-!
# Structured values

Requests, answers and settings are made of nulls, truth values, numbers, texts, lists and records.

* `Json`: such a value.
* `Json.get?`, `Json.put`: fields of a record, of which each name has one.
* `Json.truthy`: the value is neither null, false, zero nor empty.
* `Json.typeName`, `Json.display`: the sort of a value and the value itself as messages show them.
* `Json.write`: the value as a document, in ASCII.
-/

/-- A structured value.  The fields of a record stand in the order in which they came up. -/
inductive Json where
  | null
  | bool (b : Bool)
  | num (n : Number)
  | text (s : String)
  | list (items : List Json)
  | object (fields : List (String × Json))

instance : Inhabited Json := ⟨.null⟩

namespace Json

/-- Replaces a field in its place, or adds it at the end. -/
def put (name : String) (value : Json) : List (String × Json) → List (String × Json)
  | [] => [(name, value)]
  | (k, old) :: rest => if k == name then (name, value) :: rest else (k, old) :: put name value rest

/-- A field of a record. -/
def get? (j : Json) (name : String) : Option Json :=
  match j with
  | object fields => (fields.find? (·.1 == name)).map (·.2)
  | _ => none

/-- The value is neither null, false, zero nor empty. -/
def truthy : Json → Bool
  | null => false
  | bool b => b
  | num n => !n.isZero
  | text s => !s.isEmpty
  | list items => !items.isEmpty
  | object fields => !fields.isEmpty

/-- The sort of a value as messages name it. -/
def typeName : Json → String
  | null => "NoneType"
  | bool _ => "bool"
  | num (.int _) => "int"
  | num (.float _) => "float"
  | text _ => "str"
  | list _ => "list"
  | object _ => "dict"

mutual

/-- The value as messages show it. -/
def display : Json → String
  | null => "None"
  | bool b => if b then "True" else "False"
  | num n => n.text
  | text s => Text.quote s
  | list items => "[" ++ showItems items ++ "]"
  | object fields => "\x7b" ++ showFields fields ++ "\x7d"

/-- Values with commas between them. -/
def showItems : List Json → String
  | [] => ""
  | [j] => display j
  | j :: rest => display j ++ ", " ++ showItems rest

/-- Fields with commas between them. -/
def showFields : List (String × Json) → String
  | [] => ""
  | [(k, j)] => Text.quote k ++ ": " ++ display j
  | (k, j) :: rest => Text.quote k ++ ": " ++ display j ++ ", " ++ showFields rest

end

/-- A character inside the quotes of a document: control characters and all beyond ASCII are
    written by the numbers of their sixteen-bit units. -/
def writeChar (c : Char) : List Char :=
  let unit (n : Nat) : List Char := '\\' :: 'u' :: Text.hexDigits 4 n
  if c == '"' || c == '\\' then ['\\', c]
  else if c == '\n' then ['\\', 'n']
  else if c == '\r' then ['\\', 'r']
  else if c == '\t' then ['\\', 't']
  else if c.toNat == 0x08 then ['\\', 'b']
  else if c.toNat == 0x0c then ['\\', 'f']
  else if 0x20 ≤ c.toNat && c.toNat < 0x7f then [c]
  else if c.toNat < 0x10000 then unit c.toNat
  else
    let n := c.toNat - 0x10000
    unit (0xd800 + n / 0x400) ++ unit (0xdc00 + n % 0x400)

/-- A text as a document. -/
def writeText (s : String) : String :=
  String.ofList ('"' :: s.toList.flatMap writeChar ++ ['"'])

/-- A number as a document. -/
def writeNumber : Number → String
  | .int n => toString n
  | .float x =>
    if x.isNaN then "NaN"
    else if x.isInf then (if x < 0 then "-Infinity" else "Infinity")
    else floatText x

mutual

/-- The value as a document on one line. -/
def write : Json → String
  | null => "null"
  | bool b => if b then "true" else "false"
  | num n => writeNumber n
  | text s => writeText s
  | list items => "[" ++ writeItems items ++ "]"
  | object fields => "\x7b" ++ writeFields fields ++ "\x7d"

/-- Values with commas between them. -/
def writeItems : List Json → String
  | [] => ""
  | [j] => write j
  | j :: rest => write j ++ ", " ++ writeItems rest

/-- Fields with commas between them. -/
def writeFields : List (String × Json) → String
  | [] => ""
  | [(k, j)] => writeText k ++ ": " ++ write j
  | (k, j) :: rest => writeText k ++ ": " ++ write j ++ ", " ++ writeFields rest

end

end Json

end Docsmith
