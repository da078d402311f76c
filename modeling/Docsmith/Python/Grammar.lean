import Docsmith.Python.Lexis

namespace Docsmith.Python

open Grammar

/-!
# The grammar of Python

The table lists the constructs of Python source files.  Expressions are read as flat chains of
operands and operators, since nothing depends on how tightly an operator binds.  A word is a keyword
only where a construct may begin or go on with it, and a name elsewhere.

* `Production`: the constructs.
* `rule`: what each construct looks like.
* `parse`: the tree of a source, or the row at which it breaks off.
-/

/-- The constructs of the grammar. -/
inductive Production where
  | module | statement | simpleStatements | simpleStatement | suite | block
  | ifStatement | forStatement | whileStatement | tryStatement | withStatement | matchStatement
  | caseClause | elseClause
  | functionDefinition | classDefinition | decoratedDefinition
  | expressionStatement | assignment | rightHandSide | target | targets | loopTargets
  | expressions | expression | operand | atom | suffix | strings | string | interpolation
  | formatSpecifier | arguments | argument | elements | comprehension | subscript
  | parameters | parameter (typed : Bool) | typeParameters | dottedName | importList

/-- A rule of the grammar of Python. -/
abbrev Phrase := Rule Terminal Production Mode

/-- Words that are never names inside an expression. -/
def operandWords : List String :=
  ["not", "lambda", "yield", "True", "False", "None"]

/-- Words that begin a statement and so are never names there. -/
def statementWords : List String :=
  ["import", "from", "assert", "return", "del", "raise", "pass", "break", "continue", "global",
   "nonlocal", "if", "for", "while", "try", "with", "def", "class"]

/-- Symbols between two operands. -/
def binaryOperators : List String :=
  ["+", "-", "*", "@", "/", "%", "//", "**", "|", "&", "^", "<<", ">>", "<", "<=", "==", "!=", ">=",
   ">", "<>", ":="]

/-- Symbols of augmented assignments. -/
def augmentedOperators : List String :=
  ["+=", "-=", "*=", "/=", "@=", "//=", "%=", "**=", ">>=", "<<=", "&=", "^=", "|="]

/-- Symbols that may follow an operand. -/
def followers : List String :=
  binaryOperators ++ augmentedOperators ++ ["=", ":", ".", "...", "->", ";", ",", "(", "["]

/-- A word with a fixed text. -/
def word (s : String) : Phrase := .term { form := .word s }

/-- A word that goes on a statement. -/
def wordOn (s : String) : Phrase := .term { form := .word s, continues := true }

/-- A symbol at the beginning of an operand or of a part of a header. -/
def sym (s : String) : Phrase := .term { form := .symbol [s] [] }

/-- One of some symbols that go on an operand. -/
def symOn (accepted : List String) : Phrase :=
  .term { form := .symbol accepted followers, continues := true }

/-- Any name. -/
def name : Phrase := .term { form := .name [] }

/-- A production of the table. -/
def the (p : Production) : Phrase := .call p

/-- Reads a rule between brackets, in which lines do not matter. -/
def enclosed (opening : Phrase) (inner : Phrase) (closing : String) : Phrase :=
  .seq opening (.within (fun _ => .bracket) (.seq inner
    (.term { form := .symbol [closing] [], continues := true })))

/-- Reads a rule in the header of a compound statement. -/
def inHeader (a : Phrase) : Phrase := .within (fun _ => .header) a

/-- The context after an operator: in brackets, the closing one cannot follow. -/
def afterOperator : Mode → Mode
  | .bracket => .openBracket
  | m => m

/-- The context of a part that cannot end a statement. -/
def unfinished : Mode → Mode
  | .line => .header
  | .bracket => .openBracket
  | m => m

/-- Rules with commas between them and perhaps one after the last. -/
def commaList (a : Phrase) : Phrase :=
  .seq (.sepBy a (symOn [","])) (.opt (symOn [","]))

/-- Rules with commas between them that must go on before the line ends. -/
def lineList (a : Phrase) : Phrase :=
  .seq (.seq a (.many (.all [symOn [","], .term { form := .sameLine }, a])))
    (.opt (symOn [","]))

/-- An optional part on the line under way. -/
def onLine (a : Phrase) : Phrase := .opt (.seq (.term { form := .sameLine }) a)

/-- A clause that begins like a statement. -/
def clause (kind : String) (a : Phrase) : Phrase :=
  .seq (.term { form := .begin }) (.node kind a)

/-- A colon and the body after it. -/
def body (role : String) : Phrase :=
  .seq (sym ":") (.role role (the .suite))

/-- The operators written as words. -/
def wordOperators : Phrase :=
  .any [wordOn "and", wordOn "or", wordOn "in", wordOn "as",
    .seq (wordOn "not") (word "in"), .seq (wordOn "is") (.opt (word "not"))]

/-- A place at which a value begins that cannot go on a call or subscript of the word before. -/
def valueAhead : Phrase :=
  .ahead (.any [.term { form := .stringStart, continues := true },
    .term { form := .number, continues := true },
    .seq (.avoid (.any [wordOperators, wordOn "if", wordOn "else", wordOn "not"]))
      (.term { form := .name [], continues := true })])

/-- An attribute or item of what stands before, perhaps after some calls. -/
def accessChain : Phrase :=
  .seq (.many (the .arguments)) (.any [.seq (symOn ["."]) name,
    enclosed (symOn ["["]) (commaList (the .subscript)) "]"])

/-- What each construct looks like. -/
def rule : Production → Phrase
  | .module => .seq (.many (the .statement)) (.term { form := .finish })
  | .statement =>
    .seq (.term { form := .begin }) (.any [
      the .ifStatement, the .forStatement, the .whileStatement, the .tryStatement,
      the .withStatement, the .functionDefinition, the .classDefinition,
      the .decoratedDefinition, the .matchStatement, the .simpleStatements])
  | .simpleStatements =>
    .all [.sepBy (the .simpleStatement) (.seq (symOn [";"]) (.term { form := .sameLine })),
      .opt (symOn [";"]), .term { form := .newline }]
  | .simpleStatement =>
    .any [
      .node "import_statement" (.seq (word "import") (the .importList)),
      .node "import_from_statement" (.all [word "from",
        .any [.seq (.seq (.any [sym "...", sym "."]) (.many (.any [sym "...", sym "."])))
            (.opt (.seq (.avoid (word "import")) (the .dottedName))),
          the .dottedName],
        word "import",
        .any [.node "wildcard_import" (sym "*"),
          enclosed (sym "(") (the .importList) ")", the .importList]]),
      .node "assert_statement" (.seq (word "assert") (.sepBy (the .expression) (symOn [","]))),
      .node "return_statement" (.seq (word "return") (onLine (the .expressions))),
      .node "delete_statement" (.seq (word "del") (the .expressions)),
      .node "raise_statement" (.all [word "raise",
        onLine (.seq (.avoid (word "from")) (the .expressions)),
        .opt (.seq (wordOn "from") (the .expression))]),
      .node "pass_statement" (word "pass"),
      .node "break_statement" (word "break"),
      .node "continue_statement" (word "continue"),
      .node "global_statement" (.seq (word "global") (.sepBy name (symOn [","]))),
      .node "nonlocal_statement" (.seq (word "nonlocal") (.sepBy name (symOn [","]))),
      .node "print_statement" (.all [word "print",
        .any [.seq (symOn [">>"]) (the .expression), .seq valueAhead (the .expression)],
        .many (.seq (symOn [","]) (the .expression)), .opt (symOn [","])]),
      .node "exec_statement" (.all [word "exec", valueAhead, the .operand,
        .opt (.seq (wordOn "in") (.sepBy (the .expression) (symOn [","])))]),
      .node "type_alias_statement" (.all [word "type", valueAhead, the .expression, symOn ["="],
        the .expression]),
      .seq (.avoid (.any (statementWords.map word))) (the .expressionStatement)]
  | .importList =>
    lineList (.group "aliased_import" (.seq (the .dottedName) (.opt (.seq (wordOn "as") name))))
  | .dottedName => .group "dotted_name" (.sepBy name (symOn ["."]))
  | .suite =>
    .any [
      .seq (.term { form := .indent }) (the .block),
      .seq (.avoid (.term { form := .indent })) (.any [
        .node "block" (.term { form := .newline }),
        .node "block" (.within (fun _ => .line) (the .simpleStatements))])]
  | .block =>
    .node "block" (.within (fun _ => .line)
      (.seq (.many (the .statement)) (.term { form := .dedent })))
  | .elseClause => clause "else_clause" (.seq (word "else") (body "body"))
  | .ifStatement =>
    .node "if_statement" (.all [word "if", inHeader (.seq (the .expression) (body "consequence")),
      .many (clause "elif_clause" (.seq (word "elif")
        (inHeader (.seq (the .expression) (body "consequence"))))),
      .opt (the .elseClause)])
  | .forStatement =>
    .node "for_statement" (.all [.opt (word "async"), word "for",
      inHeader (.all [the .loopTargets, word "in", the .expressions, body "body"]),
      .opt (the .elseClause)])
  | .whileStatement =>
    .node "while_statement" (.all [word "while", inHeader (.seq (the .expression) (body "body")),
      .opt (the .elseClause)])
  | .tryStatement =>
    let finallyClause := clause "finally_clause" (.seq (word "finally") (body "body"))
    .node "try_statement" (.all [word "try", inHeader (body "body"),
      .any [
        .all [
          let except := clause "except_clause" (.all [word "except", .opt (sym "*"),
            inHeader (.seq (.opt (.seq (the .expression)
              (.opt (.seq (.any [word "as", sym ","]) (the .expression))))) (body "body"))])
          .seq except (.many except),
          .opt (the .elseClause), .opt finallyClause],
        finallyClause]])
  | .withStatement =>
    .node "with_statement" (.all [.opt (word "async"), word "with",
      inHeader (.seq (commaList (the .expression)) (body "body"))])
  | .matchStatement =>
    .node "match_statement" (.all [word "match",
      inHeader (.all [commaList (the .expression), sym ":",
        .role "body" (.any [
          .seq (.term { form := .indent })
            (.node "block" (.all [the .caseClause, .many (the .caseClause),
              .term { form := .dedent }])),
          .node "block" (.seq (.avoid (.term { form := .indent }))
            (.term { form := .newline }))])])])
  | .caseClause =>
    clause "case_clause" (.seq (word "case")
      (inHeader (.all [commaList (the .argument), .opt (.seq (word "if") (the .expression)),
        body "consequence"])))
  | .functionDefinition =>
    .node "function_definition" (.all [.opt (word "async"), word "def",
      inHeader (.all [.role "name" name, .opt (the .typeParameters),
        .role "parameters" (the .parameters),
        .opt (.seq (sym "->") (.node "type" (the .expression))), body "body"])])
  | .classDefinition =>
    .node "class_definition" (.all [word "class",
      inHeader (.all [.role "name" name, .opt (the .typeParameters),
        .opt (.role "superclasses" (the .arguments)), body "body"])])
  | .decoratedDefinition =>
    let decorator := .node "decorator" (.all [sym "@", the .expression, .term { form := .newline }])
    .node "decorated_definition" (.all [decorator,
      .many (.seq (.term { form := .begin }) decorator), .term { form := .begin },
      .role "definition" (.any [the .functionDefinition, the .classDefinition])])
  | .expressionStatement =>
    .node "expression_statement" (.any [
      the .assignment,
      .node "yield" (.seq (word "yield") (onLine (.any [
        .seq (word "from") (the .expression), the .expressions]))),
      lineList (the .expression)])
  | .assignment =>
    .any [
      .node "assignment" (.seq (.role "left" (the .targets)) (.any [
        .seq (symOn ["="]) (.role "right" (the .rightHandSide)),
        .all [symOn [":"], .role "type" (.node "type" (the .expression)),
          .opt (.seq (symOn ["="]) (.role "right" (the .rightHandSide)))]])),
      .node "augmented_assignment" (.all [.role "left" (the .targets), symOn augmentedOperators,
        .role "right" (the .rightHandSide)])]
  | .rightHandSide =>
    .any [
      the .assignment,
      .node "yield" (.seq (word "yield") (onLine (.any [
        .seq (word "from") (the .expression), the .expressions]))),
      the .expressions]
  | .targets =>
    .group "pattern_list" (.seq (.seq (the .target) (.many (.all [symOn [","],
      .term { form := .sameLine }, the .target]))) (.opt (symOn [","])))
  | .loopTargets =>
    .group "pattern_list" (.seq (.seq (the .target) (.many (.all [symOn [","],
      .term { form := .sameLine }, .avoid (word "in"), the .target]))) (.opt (symOn [","])))
  | .target =>
    .any [
      .node "list_splat_pattern" (.seq (sym "*") (the .target)),
      .seq (.node "tuple_pattern" (enclosed (sym "(") (.opt (commaList (the .target))) ")"))
        (.avoid (symOn [".", "[", "("])),
      .seq (.node "list_pattern" (enclosed (sym "[") (.opt (commaList (the .target))) "]"))
        (.avoid (symOn [".", "[", "("])),
      .group "attribute" (.seq (.term { form := .name operandWords }) (.many accessChain)),
      .node "attribute" (.all [the .atom, accessChain, .many accessChain])]
  | .expressions => .group "expression_list" (lineList (the .expression))
  | .expression =>
    .any [
      .node "lambda" (.all [word "lambda", .within unfinished (.seq
          (.opt (commaList (the (.parameter false))))
          (.term { form := .symbol [":"] [], continues := true })),
        the .expression]),
      .group "conditional_expression" (.seq
        (.group "binary_operator" (.seq (the .operand) (.many (.seq
          (.any [symOn binaryOperators, wordOperators])
          (.within afterOperator (.any [.seq (.ahead (word "lambda")) (the .expression),
            the .operand]))))))
        (.opt (.all [wordOn "if", .within unfinished (the .expression), word "else",
          .within afterOperator (the .expression)])))]
  | .operand =>
    .group "unary_operator" (.seq
      (.many (.any [.term { form := .symbol ["+", "-", "~", "*"] ["**"] }, word "not",
        .seq (word "await") (.ahead (.any [.term { form := .stringStart, continues := true },
          .term { form := .number, continues := true },
          .term { form := .name ["if", "else", "in", "is", "and", "or", "not", "as", "for"],
                  continues := true },
          symOn ["("], symOn ["["], symOn ["..."],
          .term { form := .symbol ["\x7b"] [], continues := true }]))]))
      (.group "call" (.seq (the .atom) (.many (the .suffix)))))
  | .atom =>
    .any [
      the .strings,
      .term { form := .ellipsis },
      .term { form := .number },
      .node "true" (word "True"), .node "false" (word "False"), .node "none" (word "None"),
      .node "tuple" (enclosed (sym "(") (.opt (.any [
        .node "yield" (.seq (word "yield") (.opt (.any [
          .seq (word "from") (the .expression), the .expressions]))),
        the .elements])) ")"),
      .node "list" (enclosed (sym "[") (.opt (the .elements)) "]"),
      .node "dictionary" (enclosed (sym "\x7b") (.opt (the .elements)) "\x7d"),
      .term { form := .name operandWords }]
  | .suffix =>
    .any [
      .seq (symOn ["."]) name,
      the .arguments,
      enclosed (symOn ["["]) (commaList (the .subscript)) "]"]
  | .subscript =>
    let step := .seq (symOn [":"]) (.opt (the .expression))
    .any [.seq (the .argument) (.opt (.seq step (.opt step))), .seq step (.opt step)]
  | .arguments =>
    .node "argument_list" (enclosed (symOn ["("]) (.opt (commaList (.seq (the .argument)
      (.opt (the .comprehension))))) ")")
  | .argument =>
    .any [
      .seq (.term { form := .symbol ["**", "*"] [] }) (the .expression),
      .node "keyword_argument" (.all [name, symOn ["="], .within afterOperator (the .expression)]),
      the .expression]
  | .elements =>
    commaList (.seq (.any [
        .seq (.term { form := .symbol ["**", "*"] [] }) (the .expression),
        .node "yield" (.seq (word "yield") (the .expressions)),
        .seq (the .expression) (.opt (.seq (symOn [":"])
          (.within afterOperator (the .expression))))])
      (.opt (the .comprehension)))
  | .comprehension =>
    let forClause := .node "for_in_clause" (.all [.opt (wordOn "async"), wordOn "for",
      .within afterOperator (.all [the .loopTargets, word "in",
        .sepBy (the .expression) (symOn [","])])])
    let ifClause := .node "if_clause" (.seq (wordOn "if") (.within afterOperator (the .expression)))
    .seq forClause (.many (.any [forClause, ifClause]))
  | .strings => .group "concatenated_string" (.seq (the .string)
      (.many (.seq (.ahead (.term { form := .stringStart, continues := true })) (the .string))))
  | .string =>
    .node "string" (.all [.term { form := .stringStart },
      .many (.any [.term { form := .stringContent }, the .interpolation]),
      .term { form := .stringEnd }])
  | .interpolation =>
    .node "interpolation" (enclosed (sym "\x7b") (.all [
      .any [.seq (word "yield") (.opt (the .expressions)), the .expressions],
      .opt (symOn ["="]), .opt (.term { form := .conversion }),
      .opt (the .formatSpecifier)]) "\x7d")
  | .formatSpecifier =>
    .node "format_specifier" (.seq (symOn [":"])
      (.many (.any [.term { form := .formatText }, the .interpolation])))
  | .parameters =>
    .node "parameters" (enclosed (sym "(") (.opt (commaList (the (.parameter true)))) ")")
  | .parameter typed =>
    .group "parameter" (.any [
      sym "/",
      .all [.any [.seq (.term { form := .symbol ["**", "*"] [] }) name, sym "*", name,
          enclosed (sym "(") (.opt (commaList (the .target))) ")"],
        if typed then .opt (.seq (symOn [":"]) (.node "type" (.any [
          .seq (sym "*") (the .expression), the .expression]))) else .empty,
        .opt (.seq (symOn ["="]) (.within afterOperator (the .expression)))]])
  | .typeParameters =>
    .node "type_parameter" (enclosed (sym "[") (commaList (.seq (.any [
        .seq (.term { form := .symbol ["**", "*"] [] }) (the .expression), the .expression])
      (.opt (.seq (symOn [":"]) (the .expression))))) "]")

/-- The grammar with its reader of terminals. -/
def table : Table Terminal Production Mode State := ⟨lexis, rule⟩

/-- The tree of a source, or the row at which it breaks off. -/
def parse (code : Bytes) : Except Nat Node :=
  let start : State := { place := .origin code }
  let depth := 60 * (code.length + 20)
  match table.read depth .line (rule .module) start {} with
  | ⟨_, some (nodes, s)⟩ =>
    .ok (.mk { kind := "module", extent := ⟨0, s.place.offset, 0, s.place.row⟩ }
      (nodes.filter (!isMark ·)))
  | ⟨reach, none⟩ => .error reach.errorRow

end Docsmith.Python
