import Docsmith.Proofs.Doc.Slot
import Docsmith.Proofs.Minify.Outputs

namespace Docsmith

/-!
# Sources with nothing to take

The steps of minification take bodies, comments and documentation out of a source.  A source without
comments has no documentation in them, and a run of edits that finds nothing to do leaves it as it
is.

* `foldl_eq_self`, `foldlM_eq_self`: what no element of a list changes stays.
* `DocSlot.Plain`: nothing is said in a slot.
* `SourceTree.uncommented`: there is no comment in a source; `SourceTree.lineSlots_plain`: then its
  slots for line comments are plain.
-/

section Folds

variable {ε α β : Type}

/-- What no element of a list changes stays. -/
theorem foldl_eq_self {f : β → α → β} {b : β} {xs : List α} (h : ∀ a ∈ xs, f b a = b) :
    xs.foldl f b = b := by
  induction xs with
  | nil => rfl
  | cons a rest ih =>
    rw [List.foldl_cons, h a List.mem_cons_self]
    exact ih fun x hx => h x (List.mem_cons_of_mem a hx)

theorem foldlM_eq_self {f : β → α → Except ε β} {b : β} {xs : List α}
    (h : ∀ a ∈ xs, f b a = .ok b) : xs.foldlM f b = .ok b := by
  induction xs with
  | nil => rfl
  | cons a rest ih =>
    rw [List.foldlM_cons, h a List.mem_cons_self]
    exact ih fun x hx => h x (List.mem_cons_of_mem a hx)

end Folds

/-- Nothing is said in the slot, and nothing would take its place. -/
structure DocSlot.Plain (s : DocSlot) : Prop where
  hasDoc : s.hasDoc = false
  clear : s.clear = none

/-- There is no comment above a node without a comment among its siblings. -/
theorem plain_lineSlot {code : Bytes} {before : List Node} (n : Node)
    (h : ∀ c ∈ before, c.isComment = false) : (lineSlot code before n).Plain := by
  have hnone : leadingComments code before n = [] := by
    unfold leadingComments
    cases hnamed : before.filter Node.named with
    | nil => rfl
    | cons c rest =>
      have hc : c ∈ before.filter Node.named := by
        rw [hnamed]
        exact List.mem_cons_self
      simp [leadingFrom, h c (List.mem_filter.mp hc).1]
  unfold lineSlot
  rw [hnone]
  exact ⟨rfl, rfl⟩

theorem plain_inlineSlot (code : Bytes) (before : List Node) (n : Node) (indent : String) :
    (inlineSlot code before n indent).Plain := ⟨rfl, rfl⟩

namespace SourceTree

variable {t : SourceTree}

/-- There is no comment in the source. -/
def uncommented (t : SourceTree) : Bool := t.root.preorder.all fun n => !n.isComment

theorem not_isComment (h : t.uncommented = true) {n : Node} (hn : n ∈ t.root.preorder) :
    n.isComment = false := by
  simpa using List.all_eq_true.mp h n hn

/-- The slots for line comments are plain in a source without comments. -/
theorem lineSlots_plain (h : t.uncommented = true) : LineSlots t DocSlot.Plain where
  line := by
    intro parent hparent before n hmem
    refine plain_lineSlot n fun c hc => not_isComment h (preorder_child hparent ?_)
    obtain ⟨rest, hrest⟩ := mem_withBefore hmem
    rw [List.reverse_nil, List.nil_append] at hrest
    rw [hrest]
    simp [hc]
  inline := fun _ _ before n _ indent => plain_inlineSlot t.code before n indent

/-- A walk finds comments unless there are none. -/
theorem findAll_comment : t.root.findAll ["comment"] = [] ↔ t.uncommented = true := by
  simp only [List.eq_nil_iff_forall_not_mem, mem_findAll, List.mem_singleton, uncommented,
    List.all_eq_true, Node.isComment, Bool.not_eq_true', beq_eq_false_iff_ne, ne_eq, not_and]

theorem dropComments_of_uncommented (h : t.uncommented = true) : t.dropComments = t := by
  rw [dropComments, findAll_comment.mpr h]
  rfl

end SourceTree

end Docsmith
