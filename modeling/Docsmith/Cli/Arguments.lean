import Docsmith.Number.Reading

namespace Docsmith.Cli

open Text

/-!
# Command lines

A command takes options, which begin with a dash, and at most one operand.  Long options may be
shortened as long as they stay unique, short ones may be written together, and a value may follow an
equals sign.

* `OptionSpec`, `Operand`, `Usage`: what a command takes.
* `Usage.classify`: an argument as an option or not.
* `Usage.parse`: what a command line gives, with the arguments that nobody knows.
* `Stop`: why there is nothing to run.
-/

/-- What the values of an option are. -/
inductive ValueSort where
  | text
  | integer
  | choice (names : List String)
deriving DecidableEq, Repr

/-- What an option is for: it is noted with its values, or shows help or the version at once. -/
inductive Effect where
  | note
  | help
  | version
deriving DecidableEq, Repr

/-- An option: its spellings, the number of its values and their sort, and its effect. -/
structure OptionSpec where
  names : List String
  arity : Nat := 0
  sort : ValueSort := .text
  effect : Effect := .note
deriving DecidableEq, Repr

/-- The operand of a command: one that may be left out, one that may not, or the name of a command
    with everything after it. -/
inductive Operand where
  | optional (name : String)
  | required (name : String)
  | command (name : String) (choices : List String)
deriving DecidableEq, Repr

/-- What a command takes. -/
structure Usage where
  program : String
  options : List OptionSpec
  operand : Operand
deriving DecidableEq, Repr

/-- Why there is nothing to run: help or the version is shown, or the command line is wrong. -/
inductive Stop where
  | help (program : String)
  | version
  | misuse (program message : String)
deriving DecidableEq, Repr

/-- The line that tells what is wrong with a command line. -/
def Stop.message : Stop → String
  | misuse program message => program ++ ": error: " ++ message
  | _ => ""

/-- An option with the values it was given. -/
structure Occurrence where
  option : OptionSpec
  values : List String
deriving DecidableEq, Repr

/-- What a command line gives: options in their order, the arguments of the operand if it is there,
    and arguments that nobody knows. -/
structure Parsed where
  occurrences : List Occurrence := []
  operand : List String := []
  extras : List String := []
deriving DecidableEq, Repr

/-- A value written together with an option: behind an equals sign or right after a short one. -/
structure Attached where
  equals : Bool
  value : String
deriving DecidableEq, Repr

/-- An argument: a plain one, the mark after which all are plain, an option by one of its spellings,
    or an option that is not known. -/
inductive ArgKind where
  | plain
  | divider
  | option (spec : OptionSpec) (spelling : String) (attached : Option Attached)
  | unknown
deriving DecidableEq, Repr

/-- The argument is no option. -/
def ArgKind.isPlain : ArgKind → Bool
  | plain | divider => true
  | _ => false

/-- The names of an option, as messages call it. -/
def OptionSpec.title (o : OptionSpec) : String := "/".intercalate o.names

/-- The name of an operand, as messages call it. -/
def Operand.title : Operand → String
  | optional name => name
  | required name => name
  | command name _ => name

/-! ### Classification -/

/-- A text at its first equals sign. -/
def splitEquals (s : String) : String × Option String :=
  let cs := s.toList
  match cs.dropWhile (· != '=') with
  | _ :: rest => (String.ofList (cs.takeWhile (· != '=')), some (String.ofList rest))
  | [] => (s, none)

/-- The text is a negative number: digits, or a point with digits behind it, after a dash. -/
def isNegativeNumber (s : String) : Bool :=
  match s.toList with
  | '-' :: rest =>
    let isDigit (c : Char) : Bool := (digitValue? c).isSome
    match rest.dropWhile isDigit with
    | [] => !rest.isEmpty
    | '.' :: fraction => !fraction.isEmpty && fraction.all isDigit
    | _ => false
  | _ => false

namespace Usage

/-- Every spelling of every option. -/
def spellings (u : Usage) : List (String × OptionSpec) :=
  u.options.flatMap fun o => o.names.map fun n => (n, o)

/-- The option of a spelling. -/
def option? (u : Usage) (spelling : String) : Option OptionSpec :=
  (u.spellings.find? (·.1 == spelling)).map (·.2)

/-- The command line is wrong. -/
def misuse (u : Usage) (message : String) : Stop := .misuse u.program message

/-- The command line is wrong about an argument. -/
def misuseOf (u : Usage) (title message : String) : Stop :=
  u.misuse ("argument " ++ title ++ ": " ++ message)

/-- The options that an argument may be short for. -/
def candidates (u : Usage) (arg : String) : List (OptionSpec × String × Option Attached) :=
  if arg.startsWith "--" then
    let (stem, value) := splitEquals arg
    u.spellings.filterMap fun (n, o) =>
      if n.startsWith stem then some (o, n, value.map fun v => ⟨true, v⟩) else none
  else
    let short := String.ofList (arg.toList.take 2)
    u.spellings.filterMap fun (n, o) =>
      if n == short then some (o, n, some ⟨false, String.ofList (arg.toList.drop 2)⟩)
      else if n.startsWith arg then some (o, n, none)
      else none

/-- What an argument is. -/
def classify (u : Usage) (arg : String) : Except Stop ArgKind :=
  if !arg.startsWith "-" || arg == "-" then .ok .plain
  else match u.option? arg with
    | some o => .ok (.option o arg none)
    | none =>
      let (stem, value) := splitEquals arg
      match value, u.option? stem with
      | some v, some o => .ok (.option o stem (some ⟨true, v⟩))
      | _, _ =>
        match u.candidates arg with
        | [(o, n, attached)] => .ok (.option o n attached)
        | [] =>
          if isNegativeNumber arg || arg.toList.contains ' ' then .ok .plain else .ok .unknown
        | many =>
          .error (u.misuse ("ambiguous option: " ++ arg ++ " could match "
            ++ ", ".intercalate (many.map (·.2.1))))

/-- What the arguments are; after the first divider all are plain. -/
def classifyAll (u : Usage) : List String → Except Stop (List (String × ArgKind))
  | [] => .ok []
  | arg :: rest =>
    if arg == "--" then .ok ((arg, .divider) :: rest.map fun a => (a, .plain))
    else do
      let s ← u.classify arg
      return (arg, s) :: (← u.classifyAll rest)

/-! ### Values -/

/-- Checks a value of an option or operand. -/
def checkValue (u : Usage) (title : String) (sort : ValueSort) (value : String) :
    Except Stop Unit :=
  match sort with
  | .text => .ok ()
  | .integer =>
    if (readInt? value).isSome then .ok ()
    else .error (u.misuseOf title ("invalid int value: " ++ quote value))
  | .choice names =>
    if names.contains value then .ok ()
    else .error (u.misuseOf title ("invalid choice: " ++ quote value ++ " (choose from "
      ++ ", ".intercalate (names.map quote) ++ ")"))

/-- Takes an option with its values. -/
def take (u : Usage) (p : Parsed) (o : OptionSpec) (values : List String) : Except Stop Parsed := do
  values.forM (u.checkValue o.title o.sort)
  match o.effect with
  | .help => .error (.help u.program)
  | .version => .error .version
  | .note => return { p with occurrences := p.occurrences ++ [⟨o, values⟩] }

/-- How many values an option has, for messages. -/
def expected (n : Nat) : String :=
  if n == 1 then "expected one argument" else "expected " ++ toString n ++ " arguments"

/-- The value attached to an option that takes none is not wanted. -/
def ignored (u : Usage) (o : OptionSpec) (value : String) : Stop :=
  u.misuseOf o.title ("ignored explicit argument " ++ quote value)

/-- The options of short ones written together, with the values they take from what follows, the
    unknown rest, and how many of the arguments that follow are used up.  The first argument bounds
    the number of steps. -/
def unfoldOption (u : Usage) (following : List (String × ArgKind)) :
    Nat → OptionSpec → String → Option Attached →
      Except Stop (List (OptionSpec × List String) × List String × Nat)
  | 0, _, _, _ => .ok ([], [], 0)
  | steps + 1, o, spelling, attached =>
    match attached with
    | none =>
      let values := following.take o.arity
      if values.length < o.arity || values.any fun (_, s) => s != .plain then
        .error (u.misuseOf o.title (expected o.arity))
      else .ok ([(o, values.map (·.1))], [], o.arity)
    | some a =>
      match o.arity with
      | 1 => .ok ([(o, [a.value])], [], 0)
      | 0 =>
        match a.value.toList with
        | [] => .error (u.ignored o a.value)
        | c :: rest =>
          if spelling.startsWith "--" || a.equals || c == '-' then .error (u.ignored o a.value)
          else
            match u.option? (String.ofList ['-', c]) with
            | none => .ok ([(o, [])], ["-" ++ a.value], 0)
            | some next =>
              let attached := match rest with
                | [] => none
                | '=' :: value => some ⟨true, String.ofList value⟩
                | value => some ⟨false, String.ofList value⟩
              (u.unfoldOption following steps next (String.ofList ['-', c]) attached).map
                fun (taken, extras, used) => ((o, []) :: taken, extras, used)
      | n => .error (u.misuseOf o.title (expected n))

/-- Takes the option at the head of the arguments, and gives those that are left. -/
def takeOption (u : Usage) (p : Parsed) (arg : String) (sort : ArgKind)
    (following : List (String × ArgKind)) : Except Stop (Parsed × List (String × ArgKind)) :=
  match sort with
  | .option o spelling attached => do
    let (taken, extras, used) ← u.unfoldOption following (arg.length + 1) o spelling attached
    let p ← taken.foldlM (fun p (o, values) => u.take p o values)
      { p with extras := p.extras ++ extras }
    return (p, following.drop used)
  | _ => .ok ({ p with extras := p.extras ++ [arg] }, following)

/-- The number of arguments at the head that the operand takes; none when it cannot be there. -/
def operandLength (u : Usage) (args : List (String × ArgKind)) : Option Nat :=
  let dividers := (args.takeWhile fun (_, s) => s == .divider).length
  let rest := args.drop dividers
  let plain := rest.head?.any fun (_, s) => s == .plain
  let trailing := ((rest.drop 1).takeWhile fun (_, s) => s == .divider).length
  match u.operand with
  | .optional _ => some (if plain then dividers + 1 + trailing else dividers)
  | .required _ => if plain then some (dividers + 1 + trailing) else none
  | .command _ _ => if plain then some args.length else none

/-- Takes the operand from the head of the arguments, and gives those that are left and whether the
    operand was there. -/
def takeOperand (u : Usage) (p : Parsed) (args : List (String × ArgKind)) :
    Except Stop (Parsed × List (String × ArgKind) × Bool) := do
  match u.operandLength args with
  | none => return (p, args, false)
  | some n =>
    let values := (args.take n).map (·.1)
    match u.operand with
    | .command title choices =>
      u.checkValue title (.choice choices) (values.headD "")
      return ({ p with operand := values }, args.drop n, true)
    | _ => return ({ p with operand := values.erase "--" }, args.drop n, true)

/-- Takes options and the operand in turns as long as there are options left.  The first argument
    bounds the number of steps. -/
def takeAll (u : Usage) :
    Nat → Parsed → Bool → List (String × ArgKind) → Except Stop (Parsed × Bool)
  | 0, p, done, _ => .ok (p, done)
  | steps + 1, p, done, args =>
    if args.all fun (_, s) => s.isPlain then do
      let (p, rest, found) ← if done then pure (p, args, true) else u.takeOperand p args
      return ({ p with extras := p.extras ++ rest.map (·.1) }, done || found)
    else match args with
      | [] => .ok (p, done)
      | (arg, sort) :: following =>
        if !sort.isPlain then do
          let (p, rest) ← u.takeOption p arg sort following
          u.takeAll steps p done rest
        else do
          let (p, rest, found) ← if done then pure (p, args, false) else u.takeOperand p args
          if rest.length < args.length then u.takeAll steps p (done || found) rest
          else
            let skipped := args.takeWhile fun (_, s) => s.isPlain
            u.takeAll steps { p with extras := p.extras ++ skipped.map (·.1) } (done || found)
              (args.drop skipped.length)

/-- What a command line gives. -/
def parse (u : Usage) (args : List String) : Except Stop Parsed := do
  let sorted ← u.classifyAll args
  let (p, done) ← u.takeAll (args.length + 1) {} false sorted
  match u.operand with
  | .required name =>
    if done then return p
    else .error (u.misuse ("the following arguments are required: " ++ name))
  | _ => return p

end Usage

/-! ### Reading what was given -/

namespace Parsed

/-- The values of the last occurrence of an option. -/
def last? (p : Parsed) (name : String) : Option (List String) :=
  (p.occurrences.reverse.find? fun o => o.option.names.contains name).map (·.values)

/-- The option is there. -/
def flag (p : Parsed) (name : String) : Bool := (p.last? name).isSome

/-- The value of the last occurrence of an option. -/
def value? (p : Parsed) (name : String) : Option String := (p.last? name).bind (·.head?)

/-- The values of the last occurrence of an option as integers. -/
def integers? (p : Parsed) (name : String) : Option (List Int) :=
  (p.last? name).map fun vs => vs.filterMap readInt?

/-- The values of all occurrences of an option. -/
def values (p : Parsed) (name : String) : List String :=
  (p.occurrences.filter fun o => o.option.names.contains name).flatMap (·.values)

end Parsed

end Docsmith.Cli
