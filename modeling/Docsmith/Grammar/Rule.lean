import Docsmith.Tree.Node

namespace Docsmith.Grammar

/-!
# Grammars as data

A grammar is a table of rules over terminals of type `τ`, productions of type `ρ` and reading
contexts of type `μ`.  A rule reads one piece of a source and yields the nodes found in it.  Choices
are ordered: the first alternative that reads wins, and a repetition takes all it can.

* `Rule`: the forms of a rule.
* `Rule.opt`, `Rule.all`, `Rule.any`, `Rule.sepBy`: forms built from these.
-/

/-- What a piece of a source looks like. -/
inductive Rule (τ ρ μ : Type) where
  /-- one terminal -/
  | term (t : τ)
  /-- whatever the table says of a production -/
  | call (p : ρ)
  /-- nothing at all -/
  | empty
  /-- one rule and then another -/
  | seq (a b : Rule τ ρ μ)
  /-- the first of two rules that reads -/
  | alt (a b : Rule τ ρ μ)
  /-- a rule as often as it reads -/
  | many (a : Rule τ ρ μ)
  /-- the place is such that the rule would read, but nothing is read -/
  | ahead (a : Rule τ ρ μ)
  /-- the place is such that the rule would not read -/
  | avoid (a : Rule τ ρ μ)
  /-- a rule whose nodes become the children of a new one -/
  | node (kind : String) (a : Rule τ ρ μ)
  /-- a rule whose nodes become the children of a new one, unless there is only one -/
  | group (kind : String) (a : Rule τ ρ μ)
  /-- a rule whose nodes, comments apart, play a role -/
  | role (name : String) (a : Rule τ ρ μ)
  /-- a rule read in another context -/
  | within (change : μ → μ) (a : Rule τ ρ μ)

namespace Rule

variable {τ ρ μ : Type}

/-- A rule or nothing. -/
def opt (a : Rule τ ρ μ) : Rule τ ρ μ := alt a empty

/-- Some rules one after the other. -/
def all : List (Rule τ ρ μ) → Rule τ ρ μ
  | [] => empty
  | [a] => a
  | a :: as => seq a (all as)

/-- The first of some rules that reads. -/
def any : List (Rule τ ρ μ) → Rule τ ρ μ
  | [] => avoid empty
  | [a] => a
  | a :: as => alt a (any as)

/-- A rule once or more, with separators between. -/
def sepBy (a sep : Rule τ ρ μ) : Rule τ ρ μ := seq a (many (seq sep a))

end Rule

end Docsmith.Grammar
