import Docsmith.Go.Lexis

namespace Docsmith.Go

open Grammar

/-!
# The grammar of Go

The table lists the constructs of Go source files.  Statements may stand at the top level, and the
package clause may be missing.  Expressions are read as flat chains of operands and operators, since
nothing depends on how tightly an operator binds.

* `Production`: the constructs.
* `rule`: what each construct looks like.
* `parse`: the tree of a source, or the row at which it breaks off.
-/

/-- The constructs of the grammar.  In the header of a control statement an opening brace begins the
    statement's block and never a literal; the flag of the expression forms says so. -/
inductive Production where
  | sourceFile | topLevel | statement | declaration | simple | block | statements
  | constSpec | varSpec | typeSpec | importSpec
  | ifStatement | forStatement | switchStatement | selectStatement | caseClause
  | expression (header : Bool) | operand (header : Bool) | suffix
  | expressions | argument | typeOrExpression | literalValue | element
  | type | typeName | typeArguments | typeParameters | typeElement
  | parameters | parameter | result | fieldList | interfaceBody

/-- A rule of the grammar of Go. -/
abbrev Phrase := Rule Terminal Production Bool

/-- The words that cannot be names where an expression may stand. -/
def keywords : List String :=
  ["break", "case", "chan", "const", "continue", "default", "defer", "else", "fallthrough", "for",
   "func", "go", "goto", "if", "import", "interface", "map", "package", "range", "return", "select",
   "struct", "switch", "type", "var"]

/-- The words that begin a type. -/
def typeWords : List String := ["chan", "func", "interface", "map", "struct"]

/-- Operators between two operands. -/
def binaryOperators : List String :=
  ["*", "/", "%", "<<", ">>", "&", "&^", "+", "-", "|", "^", "==", "!=", "<", "<=", ">", ">=",
   "&&", "||"]

/-- Operators of assignments, the declaring one apart. -/
def assignOperators : List String :=
  ["=", "*=", "/=", "%=", "<<=", ">>=", "&=", "&^=", "+=", "-=", "|=", "^="]

/-- Symbols that may follow an operand. -/
def followers : List String :=
  binaryOperators ++ assignOperators ++ [":=", "++", "--", "<-", ":", "...", ".", "(", "[", "\x7b"]

/-- A word with a fixed text. -/
def word (s : String) : Phrase := .term { form := .word s }

/-- A word that goes on a statement. -/
def wordOn (s : String) : Phrase := .term { form := .word s, continues := true }

/-- A symbol; line feeds before it are white space. -/
def sym (s : String) : Phrase := .term { form := .symbol [s] [] }

/-- One of some symbols that go on an operand. -/
def symOn (accepted : List String) : Phrase :=
  .term { form := .symbol accepted followers, continues := true }

/-- Any name. -/
def name (kind : String) : Phrase := .term { form := .name kind [] }

/-- A name where a type may stand too. -/
def freeName (kind : String) : Phrase := .term { form := .name kind typeWords }

/-- The end of a statement. -/
def terminator : Phrase := .term { form := .terminator }

/-- The statement goes on before the line ends. -/
def sameLine : Phrase := .term { form := .sameLine }

/-- A production of the table. -/
def the (p : Production) : Phrase := .call p

/-- Brackets around a rule in which line feeds are white space. -/
def enclosed (opening : Phrase) (inner : Phrase) (closing : String) : Phrase :=
  .all [opening, .within (fun _ => false) (.seq inner (sym closing))]

/-- Rules with commas between them and perhaps one after the last. -/
def commaList (a : Phrase) : Phrase :=
  .all [.sepBy a (symOn [","]), .opt (symOn [","])]

/-- Rules with terminators between them and perhaps one after the last. -/
def lineList (a : Phrase) : Phrase :=
  .opt (.all [.sepBy a terminator, .opt terminator])

/-- A parenthesised group of specs, each with its terminator. -/
def specGroup (spec : Phrase) : Phrase :=
  .all [sym "(", .within (fun _ => true) (.seq (.many (.seq spec terminator)) (sym ")"))]

/-- A brace-delimited body whose parts end with their lines. -/
def braced (inner : Phrase) : Phrase :=
  .all [sym "\x7b", .within (fun _ => true) (.seq inner (sym "\x7d"))]

/-- An optional part that must begin on the line where the part before it ends. -/
def onLine (a : Phrase) : Phrase := .opt (.seq sameLine a)

/-- The assigning half of a simple statement. -/
def assignment (header : Bool) : Phrase :=
  .all [.many (.seq (symOn [","]) (the (.expression header))), symOn (":=" :: assignOperators),
    .sepBy (the (.expression header)) (symOn [","])]

/-- What may follow the first expression of a simple statement. -/
def simpleTail (header : Bool) : Phrase :=
  .any [assignment header, symOn ["++", "--"],
    .seq (symOn ["<-"]) (the (.expression header)), .empty]

/-- A place where a type that is no expression may begin. -/
def typeAhead : Phrase :=
  .ahead (.any [.term { form := .symbol ["[", "*", "<-", "~"] [] },
    word "map", word "chan", word "struct", word "interface", word "func"])

/-- A brace-enclosed literal or a conversion after a type. -/
def afterType : Phrase :=
  .any [the .literalValue,
    enclosed (symOn ["("]) (.seq (the (.expression false)) (.opt (symOn [","]))) ")"]

/-- A type written with symbols or words rather than a name. -/
def writtenType : Phrase :=
  .any [
    .node "pointer_type" (.seq (sym "*") (the .type)),
    .node "struct_type" (.seq (word "struct") (braced (the .fieldList))),
    .node "interface_type" (.seq (word "interface") (braced (the .interfaceBody))),
    .node "slice_type" (.all [sym "[", sym "]", the .type]),
    .node "array_type" (.all [enclosed (sym "[") (the (.expression false)) "]", the .type]),
    .node "map_type" (.all [word "map", enclosed (sym "[") (the .type) "]", the .type]),
    .node "channel_type" (.all [word "chan", .opt (sym "<-"), the .type]),
    .node "channel_type" (.all [sym "<-", word "chan", the .type]),
    .node "function_type" (.all [word "func", the .parameters, onLine (the .result)]),
    .node "negated_type" (.seq (sym "~") (the .type))]

/-- What each construct looks like. -/
def rule : Production → Phrase
  | .sourceFile =>
    .all [.many (.seq (.any [the .topLevel, the .statement]) terminator), .opt (the .topLevel),
      .term { form := .finish }]
  | .topLevel =>
    .any [
      .node "package_clause" (.seq (word "package") (name "package_identifier")),
      .node "function_declaration" (.all [word "func", .role "name" (name "identifier"),
        .opt (.role "type_parameters" (the .typeParameters)),
        .role "parameters" (the .parameters), onLine (.role "result" (the .result)),
        onLine (.role "body" (the .block))]),
      .node "method_declaration" (.all [word "func", .role "receiver" (the .parameters),
        .role "name" (name "field_identifier"), .role "parameters" (the .parameters),
        onLine (.role "result" (the .result)), onLine (.role "body" (the .block))]),
      .node "import_declaration" (.seq (word "import")
        (.any [.node "import_spec_list" (.all [sym "(",
            .within (fun _ => true) (.seq (lineList (the .importSpec)) (sym ")"))]),
          the .importSpec]))]
  | .importSpec =>
    .node "import_spec" (.seq (.opt (.any [sym ".", name "package_identifier"]))
      (.any [.term { form := .string }, .term { form := .raw }]))
  | .declaration =>
    .any [
      .node "const_declaration" (.seq (word "const")
        (.any [specGroup (the .constSpec), the .constSpec])),
      .node "var_declaration" (.seq (word "var")
        (.any [.node "var_spec_list" (specGroup (the .varSpec)), the .varSpec])),
      .node "type_declaration" (.seq (word "type")
        (.any [specGroup (the .typeSpec), the .typeSpec]))]
  | .constSpec =>
    .node "const_spec" (.seq (.role "name" (.sepBy (name "identifier") (symOn [","])))
      (.opt (.any [
        .seq (symOn ["="]) (.role "value" (the .expressions)),
        .all [sameLine, .role "type" (the .type), symOn ["="], .role "value" (the .expressions)]])))
  | .varSpec =>
    .node "var_spec" (.seq (.sepBy (.role "name" (name "identifier")) (sym ","))
      (.any [
        .seq (sym "=") (.role "value" (the .expressions)),
        .seq (.role "type" (the .type))
          (.opt (.seq (symOn ["="]) (.role "value" (the .expressions))))]))
  | .typeSpec =>
    .any [
      .node "type_alias" (.all [.role "name" (name "type_identifier"),
        .opt (.role "type_parameters" (the .typeParameters)), sym "=", .role "type" (the .type)]),
      .node "type_spec" (.all [.role "name" (name "type_identifier"),
        .role "type_parameters" (the .typeParameters), .role "type" (the .type)]),
      .node "type_spec" (.seq (.role "name" (name "type_identifier")) (.role "type" (the .type)))]
  | .statement =>
    .any [
      the .declaration,
      .node "return_statement" (.seq (word "return") (onLine (the .expressions))),
      .node "go_statement" (.seq (word "go") (the (.expression false))),
      .node "defer_statement" (.seq (word "defer") (the (.expression false))),
      the .ifStatement, the .forStatement, the .switchStatement, the .selectStatement,
      .node "fallthrough_statement" (word "fallthrough"),
      .node "break_statement" (.seq (word "break") (onLine (freeName "label_name"))),
      .node "continue_statement" (.seq (word "continue") (onLine (freeName "label_name"))),
      .node "goto_statement" (.seq (word "goto") (name "label_name")),
      .node "labeled_statement" (.all [.term { form := .name "label_name" keywords },
        symOn [":"], .opt (the .statement)]),
      the .block,
      .node "empty_statement" (sym ";"),
      the .simple]
  | .simple =>
    .node "simple_statement" (.seq (the (.expression false)) (simpleTail false))
  | .block => .node "block" (braced (the .statements))
  | .statements => lineList (the .statement)
  | .ifStatement =>
    .node "if_statement" (.all [word "if",
      .within (fun _ => false) (.seq (the (.expression true))
        (.opt (.all [simpleTail false, sym ";",
        the (.expression true)]))),
      the .block,
      .opt (.seq (wordOn "else") (.any [the .ifStatement, the .block]))])
  | .forStatement =>
    let clause := .all [sym ";", .opt (the (.expression true)), sym ";",
      .opt (.seq (the (.expression true)) (simpleTail true))]
    .node "for_statement" (.all [word "for",
      .within (fun _ => false) (.opt (.any [
        .seq (word "range") (the (.expression true)),
        clause,
        .seq (the (.expression true)) (.any [
          .all [.many (.seq (sym ",") (the (.expression true))),
            .term { form := .symbol ["=", ":="] followers }, word "range", the (.expression true)],
          .seq (simpleTail false) clause,
          .empty])])),
      the .block])
  | .switchStatement =>
    .node "switch_statement" (.all [word "switch",
      .within (fun _ => false) (.opt (.any [
        .all [the (.expression true), simpleTail true, .opt (.seq (sym ";")
          (.opt (.seq (the (.expression true)) (simpleTail true))))],
        .seq (sym ";") (.opt (.seq (the (.expression true)) (simpleTail true)))])),
      braced (.many (the .caseClause))])
  | .selectStatement =>
    .node "select_statement" (.seq (word "select") (braced (.many (the .caseClause))))
  | .caseClause =>
    .any [
      .node "case_clause" (.all [word "case",
        .within (fun _ => false) (.all [
          .sepBy (the .typeOrExpression) (symOn [","]), simpleTail false,
          sym ":"]),
        the .statements]),
      .node "default_case" (.all [word "default", sym ":", the .statements])]
  | .expressions => .node "expression_list" (.sepBy (the (.expression false)) (symOn [","]))
  | .expression header =>
    .group "binary_expression" (.sepBy (the (.operand header)) (symOn binaryOperators))
  | .operand header =>
    .group "unary_expression" (.seq
      (.many (.term { form := .symbol ["+", "-", "!", "^", "*", "&", "<-"] [] }))
      (.group "call_expression" (.seq (.any ([
        .term { form := .number },
        .term { form := .string },
        .term { form := .raw },
        .term { form := .rune },
        enclosed (sym "(") (the (.expression false)) ")",
        enclosed (sym "(") (.seq typeAhead (the .type)) ")",
        .node "func_literal" (.all [word "func", the .parameters, onLine (the .result),
          the .block]),
        .seq (.any [.node "implicit_length_array_type" (.all [sym "[", sym "...", sym "]",
          the .type]), writtenType]) afterType,
        .all [.any [word "new", word "make"], enclosed (symOn ["("])
          (.all [the .type, .many (.seq (symOn [","]) (the (.expression false))),
            .opt (symOn [","])]) ")"]]
        ++ (if header then [] else
          [.node "composite_literal" (.seq (the .typeName) (the .literalValue))])
        ++ [.term { form := .name "identifier" keywords }]))
        (.many (the .suffix)))))
  | .suffix =>
    .any [
      .seq (symOn ["."]) (.any [
        name "field_identifier",
        enclosed (sym "(") (.any [word "type", the .type]) ")"]),
      enclosed (symOn ["("]) (.opt (commaList (.seq (the .argument) (.opt (symOn ["..."]))))) ")",
      enclosed (symOn ["["]) (.any [
        .seq (the .typeOrExpression) (.any [
          .all [symOn [":"], .opt (the (.expression false)),
            .opt (.seq (symOn [":"]) (the (.expression false)))],
          .seq (.many (.seq (symOn [","]) (the .typeOrExpression))) (.opt (symOn [","]))]),
        .all [symOn [":"], .opt (the (.expression false)),
          .opt (.seq (symOn [":"]) (the (.expression false)))]]) "]"]
  | .argument => the (.expression false)
  | .typeOrExpression =>
    .any [the (.expression false), .seq typeAhead (the .type)]
  | .literalValue =>
    .node "literal_value" (enclosed (symOn ["\x7b"]) (.opt (commaList (.seq (the .element)
      (.opt (.seq (symOn [":"]) (the .element)))))) "\x7d")
  | .element =>
    .node "literal_element" (.any [
      .seq (.ahead (sym "\x7b")) (the .literalValue), the (.expression false)])
  | .type =>
    .any [writtenType, .node "parenthesized_type" (enclosed (sym "(") (the .type) ")"),
      the .typeName]
  | .typeName =>
    .any [
      .node "generic_type" (.seq
        (.any [.node "qualified_type" (.all [freeName "package_identifier", symOn ["."],
          name "type_identifier"]), freeName "type_identifier"])
        (the .typeArguments)),
      .node "qualified_type" (.all [freeName "package_identifier", symOn ["."],
        name "type_identifier"]),
      freeName "type_identifier"]
  | .typeArguments =>
    .node "type_arguments" (enclosed (symOn ["["]) (commaList (the .typeElement)) "]")
  | .typeParameters =>
    .node "type_parameters" (enclosed (sym "[") (commaList (.node "type_parameter_declaration"
      (.seq (.sepBy (name "identifier") (symOn [","])) (the .typeElement)))) "]")
  | .typeElement => .node "type_elem" (.sepBy (the .type) (symOn ["|"]))
  | .parameters =>
    .node "parameter_list" (enclosed (sym "(") (.opt (commaList (the .parameter))) ")")
  | .parameter =>
    .any [
      .node "variadic_parameter_declaration"
        (.all [.opt (freeName "identifier"), sym "...", .role "type" (the .type)]),
      .node "parameter_declaration" (.all [
        .role "name" (.sepBy (freeName "identifier") (symOn [","])),
        .role "type" (the .type)]),
      .node "parameter_declaration" (.role "type" (the .type))]
  | .result => .any [the .parameters, the .type]
  | .fieldList =>
    let tag := onLine (.any [.term { form := .string }, .term { form := .raw }])
    lineList (.any [
      .node "field_declaration" (.all [
        .role "name" (.sepBy (name "field_identifier") (symOn [","])),
        sameLine, .role "type" (the .type), tag, .ahead (.any [terminator, sym "\x7d"])]),
      .node "field_declaration" (.all [.opt (sym "*"), .role "type" (the .typeName), tag])])
  | .interfaceBody =>
    lineList (.any [
      .node "method_elem" (.all [.role "name" (name "field_identifier"),
        .seq sameLine (.role "parameters" (the .parameters)),
        onLine (.role "result" (the .result))]),
      the .typeElement])

/-- The grammar with its reader of terminals. -/
def table : Table Terminal Production Bool State := ⟨lexis, rule⟩

/-- The tree of a source, or the row at which it breaks off. -/
def parse (code : Bytes) : Except Nat Node :=
  let start : State := { place := .origin code }
  let depth := 60 * (code.length + 20)
  match table.read depth true (rule .sourceFile) start {} with
  | ⟨_, some (nodes, s)⟩ =>
    .ok (.mk { kind := "source_file", extent := ⟨0, s.place.offset, 0, s.place.row⟩ } nodes)
  | ⟨reach, none⟩ => .error reach.errorRow

end Docsmith.Go
