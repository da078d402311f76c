import Docsmith.Doc.Slot
import Docsmith.Tree.SourceTree

namespace Docsmith

/-!
# Siblings

* `mem_preorder`, `preorder_trans`, `exists_parent`: the nodes of a tree, and those of a part of it.
* `Node.induction`: what is true of a node whenever it is of its children is true of every node.
* `walk_eq`, `mem_findAll`: the nodes that a walk meets, and those of some kinds.
* `Bytes.spaced`, `SourceTree.spaced`: the siblings of a tree are in order and have only white space
  between them.
* `pairwise_of_spaced`: so each of them ends before the later ones begin.
* `mem_withBefore`, `exists_withBefore`, `pairwise_withBefore`: a node among its siblings.
-/

/-! ### The nodes of a tree -/

/-- The nodes of some trees are those of each of them. -/
theorem mem_preorderAll {n : Node} {xs : List Node} :
    n ∈ Node.preorderAll xs ↔ ∃ x ∈ xs, n ∈ x.preorder := by
  induction xs with
  | nil => simp [Node.preorderAll]
  | cons x rest ih => simp [Node.preorderAll, ih]

theorem preorderAll_append (xs ys : List Node) :
    Node.preorderAll (xs ++ ys) = Node.preorderAll xs ++ Node.preorderAll ys := by
  induction xs with
  | nil => rfl
  | cons x rest ih => simp [Node.preorderAll, ih]

theorem sizeAll_append (xs ys : List Node) :
    Node.sizeAll (xs ++ ys) = Node.sizeAll xs + Node.sizeAll ys := by
  induction xs with
  | nil => simp [Node.sizeAll]
  | cons x rest ih => simp [Node.sizeAll, ih, Nat.add_assoc]

/-- The nodes of a tree are its root and those of its children. -/
theorem mem_preorder {n x : Node} :
    n ∈ x.preorder ↔ n = x ∨ ∃ c ∈ x.children, n ∈ c.preorder := by
  cases x with
  | mk label children => simp [Node.preorder, Node.children, mem_preorderAll]

/-- What is true of a node whenever it is of its children is true of every node. -/
theorem Node.induction {motive : Node → Prop}
    (h : ∀ n : Node, (∀ c ∈ n.children, motive c) → motive n) : ∀ n, motive n
  | .mk label children => h _ fun c hc =>
    -- a child is in the list of the children, and so smaller than the node
    have hlt : sizeOf c < sizeOf (Node.mk label children) :=
      Nat.lt_of_lt_of_le (List.sizeOf_lt_of_mem hc) (by simp [Node.children])
    Node.induction h c
termination_by n => sizeOf n
decreasing_by exact hlt

/-- The nodes of a part of a tree are nodes of the tree. -/
theorem preorder_trans {n x : Node} (root : Node) (hx : x ∈ root.preorder)
    (hn : n ∈ x.preorder) : n ∈ root.preorder := by
  induction root using Node.induction with
  | _ root ih =>
    rcases mem_preorder.mp hx with rfl | ⟨c, hc, hx⟩
    · exact hn
    · exact mem_preorder.mpr (.inr ⟨c, hc, ih c hc hx⟩)

/-- A child of a node of a tree is a node of the tree. -/
theorem preorder_child {n c root : Node} (hn : n ∈ root.preorder) (hc : c ∈ n.children) :
    c ∈ root.preorder :=
  preorder_trans root hn (mem_preorder.mpr (.inr ⟨c, hc, mem_preorder.mpr (.inl rfl)⟩))

/-- A node of a tree is its root or a child of one of its nodes. -/
theorem exists_parent {n root : Node} (hn : n ∈ root.preorder) :
    n = root ∨ ∃ parent ∈ root.preorder, n ∈ parent.children := by
  induction root using Node.induction with
  | _ root ih =>
    rcases mem_preorder.mp hn with hroot | ⟨c, hc, hn⟩
    · exact .inl hroot
    · right
      rcases ih c hc hn with rfl | ⟨parent, hparent, hn⟩
      · exact ⟨root, mem_preorder.mpr (.inl rfl), hc⟩
      · exact ⟨parent, mem_preorder.mpr (.inr ⟨c, hc, hparent⟩), hn⟩

/-- A visit with steps enough meets all nodes of the trees that it starts with. -/
theorem visit_eq {steps : Nat} {stack : List Node} (h : Node.sizeAll stack ≤ steps) :
    Node.visit steps stack = Node.preorderAll stack := by
  -- induction on the steps: a node taken and its children pushed leave one node less to visit
  induction steps generalizing stack with
  | zero =>
    cases stack with
    | nil => rfl
    | cons n rest => cases n; simp [Node.sizeAll, Node.size] at h
  | succ steps ih =>
    cases stack with
    | nil => rfl
    | cons n rest =>
      -- the node is taken from the stack and its children are put before the rest, as the walk orders them
      obtain ⟨label, children⟩ := n
      have hsize : Node.sizeAll (children ++ rest) ≤ steps := by
        simp only [Node.sizeAll, Node.size] at h
        rw [sizeAll_append]
        omega
      simp [Node.visit, Node.preorderAll, Node.preorder, Node.children, ih hsize,
        preorderAll_append]

/-- A walk meets all nodes of a tree. -/
theorem walk_eq (root : Node) : root.walk = root.preorder := by
  have hall : Node.visit root.size [root] = Node.preorderAll [root] :=
    visit_eq (by simp [Node.sizeAll])
  simpa [Node.walk, Node.preorderAll] using hall

/-- The nodes of some kinds that a walk finds are those of the tree. -/
theorem mem_findAll {n root : Node} {kinds : List String} :
    n ∈ root.findAll kinds ↔ n ∈ root.preorder ∧ n.kind ∈ kinds := by
  simp [Node.findAll, walk_eq]

/-! ### Siblings in order -/

/-- Siblings are in order, and only white space is between them. -/
def Bytes.spaced (code : Bytes) : List Node → Bool
  | [] => true
  | [n] => n.start ≤ n.stop
  | a :: b :: rest =>
    a.start ≤ a.stop && a.stop ≤ b.start && blank (code.slice a.stop b.start)
      && code.spaced (b :: rest)

/-- All siblings of a tree are in order with only white space between them. -/
def SourceTree.spaced (t : SourceTree) : Bool :=
  t.root.preorder.all fun n => t.code.spaced n.children

variable {code : Bytes}

/-- The siblings after one of them are spaced as well. -/
theorem spaced_tail {n : Node} {xs : List Node} (h : code.spaced (n :: xs) = true) :
    code.spaced xs = true := by
  cases xs with
  | nil => rfl
  | cons m rest =>
    simp only [Bytes.spaced, Bool.and_eq_true] at h
    exact h.2

theorem spaced_append {xs ys : List Node} (h : code.spaced (xs ++ ys) = true) :
    code.spaced ys = true := by
  induction xs with
  | nil => exact h
  | cons n rest ih => exact ih (spaced_tail h)

/-- A node that is among spaced siblings is no less than empty. -/
theorem start_le_stop {n : Node} {xs : List Node} (h : code.spaced (n :: xs) = true) :
    n.start ≤ n.stop := by
  cases xs with
  | nil => simpa [Bytes.spaced] using h
  | cons m rest =>
    simp only [Bytes.spaced, Bool.and_eq_true, decide_eq_true_eq] at h
    exact h.1.1.1

/-- Each of spaced siblings ends before the later ones begin. -/
theorem pairwise_of_spaced {xs : List Node} (h : code.spaced xs = true) :
    xs.Pairwise fun a b => a.stop ≤ b.start := by
  induction xs with
  | nil => exact .nil
  | cons a rest ih =>
    have hrest := ih (spaced_tail h)
    refine List.pairwise_cons.mpr ⟨fun x hx => ?_, hrest⟩
    cases rest with
    | nil => cases hx
    | cons b rest =>
      have hb := start_le_stop (spaced_tail h)
      simp only [Bytes.spaced, Bool.and_eq_true, decide_eq_true_eq] at h
      have hab : a.stop ≤ b.start := h.1.1.2
      rcases List.mem_cons.mp hx with rfl | hx
      · exact hab
      · have hlater := List.rel_of_pairwise_cons hrest hx
        omega

/-- A node with the siblings before it, and those after it. -/
theorem mem_withBefore {before before' xs : List Node} {n : Node}
    (h : (before', n) ∈ withBefore before xs) :
    ∃ rest, before.reverse ++ xs = before'.reverse ++ n :: rest := by
  induction xs generalizing before with
  | nil => cases h
  | cons m rest ih =>
    rw [withBefore] at h
    rcases List.mem_cons.mp h with h | h
    · cases h
      exact ⟨rest, rfl⟩
    · obtain ⟨after, hafter⟩ := ih h
      exact ⟨after, by rw [← hafter]; simp⟩

theorem withBefore_append (before xs ys : List Node) :
    withBefore before (xs ++ ys) = withBefore before xs ++ withBefore (xs.reverse ++ before) ys := by
  induction xs generalizing before with
  | nil => rfl
  | cons n rest ih => simp [withBefore, ih]

/-- Nodes with the siblings before them are the nodes. -/
theorem map_withBefore (before xs : List Node) : (withBefore before xs).map Prod.snd = xs := by
  induction xs generalizing before with
  | nil => rfl
  | cons n rest ih => simp [withBefore, ih]

/-- A node that comes with the siblings before it is one of the siblings. -/
theorem mem_of_withBefore {before xs : List Node} {n : Node} (h : (before, n) ∈ withBefore [] xs) :
    n ∈ xs := by
  obtain ⟨rest, hrest⟩ := mem_withBefore h
  rw [List.reverse_nil, List.nil_append] at hrest
  rw [hrest]
  simp

/-- A child of a node comes with the siblings before it. -/
theorem exists_withBefore {xs : List Node} {n : Node} (h : n ∈ xs) (before : List Node) :
    ∃ siblings, (siblings, n) ∈ withBefore before xs := by
  induction xs generalizing before with
  | nil => cases h
  | cons x rest ih =>
    rw [withBefore]
    rcases List.mem_cons.mp h with rfl | hrest
    · exact ⟨before, List.mem_cons_self⟩
    · obtain ⟨siblings, hmem⟩ := ih hrest (x :: before)
      exact ⟨siblings, List.mem_cons_of_mem _ hmem⟩

/-- What comes before some siblings comes before each of them. -/
theorem subset_of_withBefore {before before' xs : List Node} {n : Node}
    (h : (before', n) ∈ withBefore before xs) : before ⊆ before' := by
  induction xs generalizing before with
  | nil => cases h
  | cons m rest ih =>
    rcases List.mem_cons.mp h with h | h
    · cases h
      exact fun x hx => hx
    · exact fun x hx => ih h (List.mem_cons_of_mem m hx)

/-- Of two nodes that come with the siblings before them, the earlier is one of those before the later. -/
theorem pairwise_withBefore (before xs : List Node) :
    (withBefore before xs).Pairwise fun x y => x.2 ∈ y.1 := by
  induction xs generalizing before with
  | nil => exact .nil
  | cons n rest ih =>
    refine List.pairwise_cons.mpr ⟨fun y hy => ?_, ih (n :: before)⟩
    exact subset_of_withBefore hy List.mem_cons_self

/-- The children of a node of a spaced tree are spaced. -/
theorem SourceTree.spaced_children {t : SourceTree} (h : t.spaced = true) {n : Node}
    (hn : n ∈ t.root.preorder) : t.code.spaced n.children = true :=
  List.all_eq_true.mp h n hn

end Docsmith
