import Docsmith.Grammar.Rule

namespace Docsmith.Grammar

/-!
# Reading a source by a grammar

The reader of a rule tries it at a place of the source.  Comments met on the way are kept: they
become siblings of the token that follows them, and rise out of every construct that this token
begins.  So a comment belongs to the innermost construct that has code on both sides of it.

* `Reach`: the furthest place at which a terminal was refused, with what is needed to report it.
* `Lexis`: how a language reads its terminals.
* `Outcome`: what the reader of a rule found.
* `wrap`, `gather`: the nodes of a construct made one, its leading comments left in front of it.
* `Table.read`: the reader of rules.
-/

/-- Where reading got stuck: the offset and row of the refused token, the row of the last token
    before it, whether that token ended a statement, and the row of an open bracket that nothing
    closes. -/
structure Reach where
  offset : Nat := 0
  row : Nat := 0
  lastRow : Nat := 0
  afterTerminator : Bool := true
  openRow : Option Nat := none

/-- The one of two places that lies further on; the first when they are level. -/
def Reach.max (a b : Reach) : Reach :=
  if a.offset < b.offset then b else a

/-- The row at which a syntax error is reported: that of an unclosed bracket, else that of the last
    token read, or of the refused one when that began a new statement. -/
def Reach.errorRow (r : Reach) : Nat :=
  match r.openRow with
  | some row => row
  | none => if r.afterTerminator then r.row else r.lastRow

/-- How terminals are read, from a state of type `σ` in a context of type `μ`.  A terminal yields
    the comments before it and itself; a refused one yields the place of the refusal. -/
structure Lexis (τ μ σ : Type) where
  read : μ → τ → σ → Except Reach (List Node × σ)
  offset : σ → Nat

/-- What a rule read, if it did, and the furthest refusal on the way. -/
structure Outcome (σ : Type) where
  reach : Reach
  parsed? : Option (List Node × σ)

/-- A token that marks a place but is no part of the tree, such as the end of an indented block. -/
def markKind : String := ""

/-- The node is a mark and not a part of the tree. -/
def isMark (n : Node) : Bool := n.kind == markKind

/-- The node may stand between any two tokens: a comment, or the joint of two lines. -/
def isExtra (n : Node) : Bool := n.isComment || n.kind == "line_continuation"

/-- The stretch from the beginning of one node to the end of another. -/
def spanning (a b : Node) : Extent :=
  ⟨a.start, b.stop, a.row, b.lastRow⟩

/-- Makes one node of the nodes of a construct.  Comments in front of the first token stay in front
    of the construct, and marks bound its extent but are dropped. -/
def wrap (kind : String) (nodes : List Node) : List Node :=
  let body := nodes.dropWhile isExtra
  match body with
  | [] => nodes
  | first :: _ =>
    let extent := spanning first (body.getLastD first)
    nodes.takeWhile isExtra
      ++ [.mk { kind := kind, extent := extent } (body.filter (!isMark ·))]

/-- Makes one node of the nodes of a construct, unless it consists of a single one. -/
def gather (kind : String) (nodes : List Node) : List Node :=
  match nodes.dropWhile isExtra with
  | [_] => nodes
  | _ => wrap kind nodes

/-- Gives a role to nodes that are no comments. -/
def assign (role : String) (nodes : List Node) : List Node :=
  nodes.map fun n => if isExtra n || isMark n then n else n.withRole role

/-- A grammar: the reader of terminals and the rule of each production. -/
structure Table (τ ρ μ σ : Type) where
  lexis : Lexis τ μ σ
  rule : ρ → Rule τ ρ μ

/-- Reads a rule at a place.  The first argument bounds the depth of the reading. -/
def Table.read {τ ρ μ σ : Type} (g : Table τ ρ μ σ) :
    Nat → μ → Rule τ ρ μ → σ → Reach → Outcome σ
  | 0, _, _, _, r => ⟨r, none⟩
  | _ + 1, m, .term t, s, r =>
    match g.lexis.read m t s with
    | .ok out => ⟨r, some out⟩
    | .error refused => ⟨r.max refused, none⟩
  | depth + 1, m, .call p, s, r => g.read depth m (g.rule p) s r
  | _ + 1, _, .empty, s, r => ⟨r, some ([], s)⟩
  | depth + 1, m, .seq a b, s, r =>
    match g.read depth m a s r with
    | ⟨r, none⟩ => ⟨r, none⟩
    | ⟨r, some (xs, s)⟩ =>
      match g.read depth m b s r with
      | ⟨r, none⟩ => ⟨r, none⟩
      | ⟨r, some (ys, s)⟩ => ⟨r, some (xs ++ ys, s)⟩
  | depth + 1, m, .alt a b, s, r =>
    match g.read depth m a s r with
    | ⟨r, some out⟩ => ⟨r, some out⟩
    | ⟨r, none⟩ => g.read depth m b s r
  | depth + 1, m, .many a, s, r =>
    match g.read depth m a s r with
    | ⟨r, none⟩ => ⟨r, some ([], s)⟩
    | ⟨r, some (xs, s')⟩ =>
      if g.lexis.offset s < g.lexis.offset s' then
        match g.read depth m (.many a) s' r with
        | ⟨r, none⟩ => ⟨r, none⟩
        | ⟨r, some (ys, s'')⟩ => ⟨r, some (xs ++ ys, s'')⟩
      else ⟨r, some ([], s)⟩
  | depth + 1, m, .ahead a, s, r =>
    match g.read depth m a s r with
    | ⟨_, some _⟩ => ⟨r, some ([], s)⟩
    | ⟨r, none⟩ => ⟨r, none⟩
  | depth + 1, m, .avoid a, s, r =>
    match g.read depth m a s r with
    | ⟨_, some _⟩ => ⟨r, none⟩
    | ⟨_, none⟩ => ⟨r, some ([], s)⟩
  | depth + 1, m, .node kind a, s, r =>
    match g.read depth m a s r with
    | ⟨r, none⟩ => ⟨r, none⟩
    | ⟨r, some (xs, s)⟩ => ⟨r, some (Grammar.wrap kind xs, s)⟩
  | depth + 1, m, .group kind a, s, r =>
    match g.read depth m a s r with
    | ⟨r, none⟩ => ⟨r, none⟩
    | ⟨r, some (xs, s)⟩ => ⟨r, some (gather kind xs, s)⟩
  | depth + 1, m, .role name a, s, r =>
    match g.read depth m a s r with
    | ⟨r, none⟩ => ⟨r, none⟩
    | ⟨r, some (xs, s)⟩ => ⟨r, some (assign name xs, s)⟩
  | depth + 1, m, .within change a, s, r => g.read depth (change m) a s r

end Docsmith.Grammar
