import Docsmith.Doc.Slot
import Docsmith.Proofs.Grammar.Grown
import Docsmith.Tree.SourceTree
import Mathlib.Data.List.Forall2

namespace Docsmith

/-!
# Nodes among siblings when comments are inserted

Where comments are inserted in front of a node, they become comments directly above it.

* `Headed`: comments stand directly above a node, and it begins its line.
* `Beside`: nodes among their siblings, and their counterparts.
* `Along.beside`, `Parts.beside`: the siblings of some kinds have counterparts of these kinds.
* `Parts.filter`, `Grown.child?`, `Grown.childrenIn`: parts that are looked up.
* `Grown.textOf_eq`: a node in which nothing is inserted has the same text.
-/

open Grammar

variable {code : Bytes} {is : Insertions code} {xs xs' news : List Node} {n n' : Node} {o o' row : Nat}

/-! ### Comments above a node -/

/-- The node begins its line, and comments stand directly above it. -/
structure Headed (code : Bytes) (x : List Node × Node) : Prop where
  startsLine : code.startsLine x.2.start = true
  leading : leadingComments code x.1 x.2 ≠ []

/-- There is documentation in the slot above a node if comments stand there. -/
theorem hasDoc_lineSlot (code : Bytes) (before : List Node) (n : Node) :
    (lineSlot code before n).hasDoc = !(leadingComments code before n).isEmpty := by
  unfold lineSlot
  cases leadingComments code before n <;> rfl

theorem Headed.hasDoc {x : List Node × Node} (h : Headed code x) : (lineSlot code x.1 x.2).hasDoc = true := by
  rw [hasDoc_lineSlot]
  cases hleading : leadingComments code x.1 x.2 with
  | nil => exact absurd hleading h.leading
  | cons => rfl

/-- Without documentation the slot above a node is the place where its line begins. -/
theorem lineSlot_of_hasDoc {before : List Node} (h : (lineSlot code before n).hasDoc = false) :
    (lineSlot code before n).start = code.lineStart n.start ∧ (lineSlot code before n).stop = code.lineStart n.start ∧
      (lineSlot code before n).inline = false := by
  rw [hasDoc_lineSlot] at h
  unfold lineSlot
  cases hleading : leadingComments code before n with
  | nil => exact ⟨rfl, rfl, rfl⟩
  | cons => rw [hleading] at h; cases h

/-- Comments that end directly above a node head it. -/
theorem headed_of_heading {before : List Node} (hnews : ∀ c ∈ news, c.isComment = true ∧ c.named = true ∧ c.role = "")
    (h : Heading code news n.start n.row) : Headed code (news.reverse ++ before, n) := by
  refine ⟨h.startsLine, ?_⟩
  obtain ⟨c, hc, hstart, hrow⟩ := h.last
  obtain ⟨earlier, rfl⟩ := List.getLast?_eq_some_iff.mp hc
  have hcomment := hnews c (by simp)
  have hnamed : (earlier.reverse ++ before).filter Node.named = (earlier.reverse ++ before).filter Node.named := rfl
  rw [leadingComments, List.reverse_append, List.reverse_singleton, List.singleton_append, List.cons_append,
    List.filter_cons_of_pos hcomment.2.1, leadingFrom, hcomment.1, hstart, hrow]
  simp

/-! ### Siblings -/

/-- A node among its siblings has a counterpart.  If comments are inserted in front of it, they stand above its
    counterpart, unless it is the first part of a construct. -/
structure Beside (is : Insertions code) (outer : Bool) (x x' : List Node × Node) : Prop where
  node : Grown is x.2 x'.2
  headed : outer = true ∨ x.1 ≠ [] → (∃ e ∈ is.all, e.target = x.2.start) → Headed is.result x'

theorem Beside.inner {x x' : List Node × Node} (h : Beside is true x x') : Beside is false x x' :=
  ⟨h.node, fun _ => h.headed (.inl rfl)⟩

/-- Comments are not among the siblings of other kinds. -/
theorem filter_withBefore_news {p : String → Bool} (hp : p "comment" = false)
    (hnews : ∀ c ∈ news, c.isComment = true ∧ c.named = true ∧ c.role = "") (before : List Node) :
    (withBefore before news).filter (fun x => p x.2.kind) = [] := by
  refine List.filter_eq_nil_iff.mpr fun x hx => ?_
  have hmem : x.2 ∈ news := by
    rw [← map_withBefore before news]
    exact List.mem_map_of_mem hx
  rw [beq_iff_eq.mp (hnews _ hmem).1, hp]
  exact Bool.false_ne_true

/-- **Siblings have counterparts**, with the comments that are inserted above them. -/
theorem Grammar.Along.beside {p : String → Bool} (hp : p "comment" = false) (h : Along is (Grown is) xs xs')
    (before before' : List Node) : List.Forall₂ (Beside is true)
      ((withBefore before xs).filter fun x => p x.2.kind) ((withBefore before' xs').filter fun x => p x.2.kind) := by
  induction h generalizing before before' with
  | nil => exact .nil
  | @cons n n' news ns ns' hnews hnode _ ih =>
    rw [withBefore_append, List.filter_append, filter_withBefore_news hp hnews.comments, List.nil_append, withBefore,
      withBefore, List.filter_cons, List.filter_cons]
    dsimp only
    rw [hnode.kind_eq]
    split
    · refine .cons ⟨hnode, fun _ htarget => ?_⟩ (ih _ _)
      exact headed_of_heading hnews.comments (hnews.heading htarget)
    · exact ih _ _

/-- The parts of a construct have counterparts; nothing is said of what is above the first. -/
theorem Grammar.Parts.beside {p : String → Bool} (hp : p "comment" = false) (h : Parts is (Grown is) xs xs') :
    List.Forall₂ (Beside is false)
      ((withBefore [] xs).filter fun x => p x.2.kind) ((withBefore [] xs').filter fun x => p x.2.kind) := by
  cases h with
  | nil => exact .nil
  | @cons n n' ns ns' hnode hrest =>
    rw [withBefore, withBefore, List.filter_cons, List.filter_cons]
    dsimp only
    rw [hnode.kind_eq]
    have hlater := (hrest.beside hp [n] [n']).imp fun _ _ => Beside.inner
    split
    · refine .cons ⟨hnode, fun houter => ?_⟩ hlater
      rcases houter with houter | hnonempty
      · cases houter
      · exact absurd rfl hnonempty
    · exact hlater

/-! ### Parts that are looked up -/

/-- Parts that are looked up by what comments are not have counterparts. -/
theorem Grammar.Along.filter {p : Node → Bool} (hp : ∀ n n', Grown is n n' → p n' = p n)
    (hnone : ∀ c : Node, c.isComment = true ∧ c.named = true ∧ c.role = "" → p c = false)
    (h : Along is (Grown is) xs xs') : List.Forall₂ (Grown is) (xs.filter p) (xs'.filter p) := by
  induction h with
  | nil => exact .nil
  | @cons n n' news ns ns' hnews hnode _ ih =>
    have hdrop : news.filter p = [] :=
      List.filter_eq_nil_iff.mpr fun c hc => by simp [hnone c (hnews.comments c hc)]
    rw [List.filter_append, hdrop, List.nil_append, List.filter_cons, List.filter_cons, hp n n' hnode]
    split
    · exact .cons hnode ih
    · exact ih

theorem Grammar.Parts.filter {p : Node → Bool} (hp : ∀ n n', Grown is n n' → p n' = p n)
    (hnone : ∀ c : Node, c.isComment = true ∧ c.named = true ∧ c.role = "" → p c = false)
    (h : Parts is (Grown is) xs xs') : List.Forall₂ (Grown is) (xs.filter p) (xs'.filter p) := by
  cases h with
  | nil => exact .nil
  | @cons n n' ns ns' hnode hrest =>
    rw [List.filter_cons, List.filter_cons, hp n n' hnode]
    split
    · exact .cons hnode (hrest.filter hp hnone)
    · exact hrest.filter hp hnone

theorem rel_head? {R : Node → Node → Prop} (h : List.Forall₂ R xs xs') : Option.Rel R xs.head? xs'.head? := by
  cases h with
  | nil => exact .none
  | cons hfirst _ => exact .some hfirst

namespace Grammar.Grown

/-- The parts in a role. -/
theorem childrenIn (h : Grown is n n') (role : String) (hrole : role ≠ "") :
    List.Forall₂ (Grown is) (n.childrenIn role) (n'.childrenIn role) :=
  h.parts.filter (fun n n' h => by rw [h.role_eq]) fun c hc => by rw [hc.2.2]; simpa using hrole.symm

/-- The first part in a role. -/
theorem child? (h : Grown is n n') (role : String) (hrole : role ≠ "") :
    Option.Rel (Grown is) (n.child? role) (n'.child? role) := by
  rw [Node.child?, Node.child?, ← List.head?_filter, ← List.head?_filter]
  exact rel_head? (h.childrenIn role hrole)

/-- The parts that are constructs, of a kind that is none of comments. -/
theorem namedChild? (h : Grown is n n') (kind : String) (hkind : kind ≠ "comment") :
    Option.Rel (Grown is) (n.namedChildren.find? (·.kind == kind)) (n'.namedChildren.find? (·.kind == kind)) := by
  have hall := h.parts.filter (p := fun c => c.named && c.kind == kind) (fun n n' h => by rw [h.kind_eq, h.named_eq])
    fun c hc => by rw [beq_iff_eq.mp hc.1]; simpa using fun _ => hkind.symm
  rw [Node.namedChildren, Node.namedChildren, ← List.head?_filter, ← List.head?_filter, List.filter_filter,
    List.filter_filter]
  simp only [Bool.and_comm] at hall ⊢
  exact rel_head? hall

/-- **A node in which nothing is inserted has the same text.** -/
theorem slice_eq (h : Grown is n n') (hlt : n.start < n.stop)
    (hfree : ∀ e ∈ is.all, n.start < e.start → n.stop ≤ e.start) :
    is.result.slice n'.start n'.stop = code.slice n.start n.stop := h.behind.slice_eq h.before hlt hfree

end Grammar.Grown

/-- What is not there has no text, and what has the same text in both sources has the same. -/
theorem textOf_rel {t t' : SourceTree} {n? n'? : Option Node} (h : Option.Rel (fun n n' =>
    t'.code.slice n'.start n'.stop = t.code.slice n.start n.stop) n? n'?) : t'.textOf n'? = t.textOf n? := by
  cases h with
  | none => rfl
  | some h => rw [SourceTree.textOf, SourceTree.textOf, SourceTree.textBetween, SourceTree.textBetween, h]

end Docsmith
