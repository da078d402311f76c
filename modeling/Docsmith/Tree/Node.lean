namespace Docsmith

/-!
# Trees of source code

A tree has a node for every construct and every token of a source.  A node knows its kind, whether
it is a named construct or a bare token, the role it plays in its parent, and the stretch of code
that it covers.

* `Extent`: a stretch of code, by byte offsets and by rows.
* `Node`: a tree.
* `Node.namedChildren`, `Node.child?`, `Node.childrenIn`: looking up children.
* `Node.preorder`, `Node.walk`: all nodes, a parent before its children; once by recursion and once
  with a stack of nodes still to visit.
* `Node.errorRow`: the row of the first error, found by going down into the erroneous children.
-/

/-- A stretch of code: the offsets of its first byte and of the byte after its last one, and the
    rows of these two places, counted from zero. -/
structure Extent where
  start : Nat
  stop : Nat
  row : Nat
  lastRow : Nat
deriving DecidableEq, Repr

/-- What a node is, apart from its children. -/
structure Label where
  kind : String
  named : Bool := true
  role : String := ""
  extent : Extent
  hasError : Bool := false
  missing : Bool := false
deriving Repr

/-- A construct or token of a source, with the parts it is made of. -/
inductive Node where
  | mk (label : Label) (children : List Node)

namespace Node

/-- The node without its children. -/
def label : Node → Label
  | mk l _ => l

/-- The parts of a node, in source order. -/
def children : Node → List Node
  | mk _ cs => cs

/-- The grammar's name for what the node is. -/
def kind (n : Node) : String := n.label.kind

/-- The node is a construct and not a bare token. -/
def named (n : Node) : Bool := n.label.named

/-- The part that the node plays in its parent. -/
def role (n : Node) : String := n.label.role

/-- The offset of the first byte. -/
def start (n : Node) : Nat := n.label.extent.start

/-- The offset after the last byte. -/
def stop (n : Node) : Nat := n.label.extent.stop

/-- The row on which the node begins. -/
def row (n : Node) : Nat := n.label.extent.row

/-- The row on which the node ends. -/
def lastRow (n : Node) : Nat := n.label.extent.lastRow

/-- The node plays the given role. -/
def withRole (role : String) : Node → Node
  | mk l cs => mk { l with role := role } cs

/-- The node is a comment. -/
def isComment (n : Node) : Bool := n.kind == "comment"

/-- The children that are constructs. -/
def namedChildren (n : Node) : List Node := n.children.filter named

/-- The first child in a role. -/
def child? (n : Node) (role : String) : Option Node := n.children.find? (·.role == role)

/-- The children in a role. -/
def childrenIn (n : Node) (role : String) : List Node := n.children.filter (·.role == role)

mutual

/-- The number of nodes of a tree. -/
def size : Node → Nat
  | mk _ cs => sizeAll cs + 1

/-- The number of nodes of some trees. -/
def sizeAll : List Node → Nat
  | [] => 0
  | c :: cs => size c + sizeAll cs

end

mutual

/-- Every node, a parent before its children. -/
def preorder : Node → List Node
  | mk l cs => mk l cs :: preorderAll cs

/-- Every node of some trees in turn. -/
def preorderAll : List Node → List Node
  | [] => []
  | c :: cs => preorder c ++ preorderAll cs

end

/-- Visits the nodes on a stack, putting the children of each in its place.  The first argument
    bounds the number of visits. -/
def visit : Nat → List Node → List Node
  | 0, _ => []
  | _ + 1, [] => []
  | steps + 1, n :: stack => n :: visit steps (n.children ++ stack)

/-- Every node in the order in which a depth-first visit meets it. -/
def walk (n : Node) : List Node :=
  visit n.size [n]

/-- The nodes of the given kinds, in the order of the walk. -/
def findAll (n : Node) (kinds : List String) : List Node :=
  n.walk.filter fun m => kinds.contains m.kind

/-- The node stands for code that is in error or missing. -/
def isFault (n : Node) : Bool :=
  n.kind == "ERROR" || n.label.missing

/-- The node is at fault or holds a fault. -/
def flawed (n : Node) : Bool :=
  n.label.hasError || n.label.missing

mutual

/-- The row of the fault found by going down from a node into the first flawed child each time,
    or the row of the innermost flawed node when the fault has no node of its own. -/
def errorRow : Node → Nat
  | mk l cs => (errorRowAmong cs).getD l.extent.row

/-- The row of the fault in the first flawed node of a list. -/
def errorRowAmong : List Node → Option Nat
  | [] => none
  | c :: cs =>
    if c.flawed then some (if c.isFault then c.row else errorRow c) else errorRowAmong cs

end

end Node

end Docsmith
