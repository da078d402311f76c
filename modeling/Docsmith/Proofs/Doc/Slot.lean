import Docsmith.Doc.Declaration
import Docsmith.Proofs.Returns
import Docsmith.Proofs.Source.Ink
import Docsmith.Proofs.Tree.Siblings

namespace Docsmith

/-!
# Slots without documentation

A slot that has no documentation covers no code: it is a place between two tokens, or the white space
between two siblings.

* `AllSlots`, `LineSlots`: what the slots of declarations, or those for line comments in a tree, have
  in common.
* `DocSlot.Vacant`: there is no ink in a slot that has no documentation.
* `vacant_lineSlot`, `vacant_inlineSlot`, `lineSlots_vacant`: the slots for line comments are so.
-/

/-- The slots of some declarations have a property. -/
def AllSlots (P : DocSlot → Prop) (ds : List Declaration) : Prop := ∀ d ∈ ds, P d.slot

section AllSlots

variable {P : DocSlot → Prop}

theorem allSlots_singleton {d : Declaration} (h : P d.slot) : AllSlots P [d] := by
  intro d' hd'
  rw [List.mem_singleton.mp hd']
  exact h

/-- The declarations of several constructs. -/
theorem allSlots_flatten {found : List (List Declaration)} (h : ∀ ds ∈ found, AllSlots P ds) :
    AllSlots P found.flatten := by
  intro d hd
  obtain ⟨ds, hds, hd⟩ := List.mem_flatten.mp hd
  exact h ds hds d hd

end AllSlots

/-- The slots for line comments at the nodes of a tree have a property. -/
structure LineSlots (t : SourceTree) (P : DocSlot → Prop) : Prop where
  line : ∀ parent ∈ t.root.preorder, ∀ before n, (before, n) ∈ withBefore [] parent.children →
    P (lineSlot t.code before n)
  inline : ∀ parent ∈ t.root.preorder, ∀ before n, (before, n) ∈ withBefore [] parent.children →
    ∀ indent, P (inlineSlot t.code before n indent)

/-- There is no ink in the slot, apart from some spans, if it has no documentation. -/
def DocSlot.Vacant (spans : List (Nat × Nat)) (code : Bytes) (slot : DocSlot) : Prop :=
  slot.hasDoc = false → code.Inkless spans slot.start slot.stop

/-- The slots of some declarations cover no code. -/
def AllVacant (spans : List (Nat × Nat)) (code : Bytes) (ds : List Declaration) : Prop :=
  AllSlots (·.Vacant spans code) ds

variable {spans : List (Nat × Nat)} {code : Bytes}

/-! ### Slots for line comments -/

/-- There is no ink between two siblings. -/
theorem inkless_gap {a b : Node} {xs : List Node} (h : code.spaced (a :: b :: xs) = true) :
    code.Inkless spans a.stop b.start := by
  simp only [Bytes.spaced, Bool.and_eq_true, decide_eq_true_eq] at h
  exact .of_blank h.1.1.2 h.1.2

/-- A slot that is a place is vacant. -/
theorem vacant_of_place {slot : DocSlot} (h : slot.start = slot.stop) : slot.Vacant spans code := by
  intro _
  rw [h]
  exact .refl ..

/-- The slot above a node is a place unless there are comments. -/
theorem vacant_lineSlot (before : List Node) (n : Node) :
    (lineSlot code before n).Vacant spans code := by
  unfold lineSlot
  dsimp only
  split
  · exact vacant_of_place rfl
  · rintro ⟨⟩

/-- The slot between a node and the sibling before it holds only white space. -/
theorem vacant_inlineSlot {before xs : List Node} {n : Node} (h : (before, n) ∈ withBefore [] xs)
    (hspaced : code.spaced xs = true) (indent : String) :
    (inlineSlot code before n indent).Vacant spans code := by
  cases before with
  | nil => exact vacant_of_place rfl
  | cons prev others =>
    obtain ⟨rest, hrest⟩ := mem_withBefore h
    rw [List.reverse_nil, List.nil_append, List.reverse_cons, List.append_assoc] at hrest
    rw [hrest] at hspaced
    intro _
    exact inkless_gap (spaced_append hspaced)

/-- The slots for line comments in a spaced tree are vacant. -/
theorem lineSlots_vacant {t : SourceTree} (hspaced : t.spaced = true) :
    LineSlots t (·.Vacant spans t.code) where
  line := fun _ _ before n _ => vacant_lineSlot before n
  inline := fun _ hparent _ _ hmem indent =>
    vacant_inlineSlot hmem (SourceTree.spaced_children hspaced hparent) indent

end Docsmith
