import Docsmith.Doc.Declaration
import Docsmith.Proofs.Doc.Leading
import Docsmith.Tree.SourceTree

namespace Docsmith

/-!
# Where comments land

A comment that is put into an empty slot stands in front of the first code behind the beginning of the slot.

* `Bytes.inkFrom`: the first code from an offset on.
* `Declaration.landing`: the code in front of which a comment on a declaration stands.
* `SourceTree.Lands`: it is the declaration, or the construct at the top level that holds it.
-/

namespace Bytes

variable {code : Bytes} {a b i o : Nat}

/-- The first offset from some offset on at which there is code. -/
def inkFrom (code : Bytes) (o : Nat) : Nat := o + ((code.drop o).takeWhile isBlank).length

theorem le_inkFrom (code : Bytes) (o : Nat) : o ≤ code.inkFrom o := Nat.le_add_right _ _

/-- Up to there is only white space. -/
theorem inkAt_of_lt_inkFrom (ho : o ≤ i) (hi : i < code.inkFrom o) : code.inkAt i = false := by
  have hlt : i - o < ((code.drop o).takeWhile isBlank).length := by
    unfold inkFrom at hi
    omega
  have hbyte := List.getElem?_eq_getElem hlt
  obtain ⟨rest, hprefix⟩ := List.takeWhile_prefix (l := code.drop o) isBlank
  have hsame : (code.drop o)[i - o]? = ((code.drop o).takeWhile isBlank)[i - o]? := by
    conv_lhs => rw [← hprefix]
    rw [List.getElem?_append_left hlt]
  rw [List.getElem?_drop, Nat.add_sub_cancel' ho, hbyte] at hsame
  have hblank := List.all_eq_true.mp (List.all_takeWhile (p := isBlank) (l := code.drop o)) _ (List.getElem_mem hlt)
  rw [inkAt, hsame]
  simpa using hblank

/-- There is code if it is not the end of the source. -/
theorem inkAt_inkFrom (h : code.inkFrom o < code.length) : code.inkAt (code.inkFrom o) = true := by
  unfold inkFrom at h ⊢
  have hdrop : (code.drop o).drop ((code.drop o).takeWhile isBlank).length = (code.drop o).dropWhile isBlank := by
    have hsplit (ys : Bytes) : ys.drop (ys.takeWhile isBlank).length = ys.dropWhile isBlank := by
      induction ys with
      | nil => rfl
      | cons b ys ih => by_cases hb : isBlank b = true <;> simp [hb, ih]
    exact hsplit _
  rw [List.drop_drop] at hdrop
  -- ink is what stands first behind the blanks, if anything does
  cases hrest : (code.drop o).dropWhile isBlank with
  | nil =>
    rw [hrest, List.drop_eq_nil_iff] at hdrop
    omega
  | cons b rest =>
    have hhead := List.head?_dropWhile_not isBlank (code.drop o)
    rw [hrest] at hdrop hhead
    rw [inkAt, ← List.head?_drop, hdrop]
    simpa using hhead

/-- It is known by the white space before it. -/
theorem inkFrom_eq (hle : a ≤ b) (hblank : ∀ i, a ≤ i → i < b → code.inkAt i = false) (hink : code.inkAt b = true) :
    code.inkFrom a = b := by
  have hlt : b < code.length := by
    by_contra hge
    rw [inkAt, List.getElem?_eq_none (by omega)] at hink
    cases hink
  rcases Nat.lt_trichotomy (code.inkFrom a) b with h | h | h
  · have hnone := hblank _ (le_inkFrom code a) h
    rw [inkAt_inkFrom (by omega)] at hnone
    cases hnone
  · exact h
  · rw [inkAt_of_lt_inkFrom hle h] at hink
    cases hink

/-- From a later offset on it is the same, or the later offset is behind it. -/
theorem inkFrom_of_le (hink : code.inkAt (code.inkFrom a) = true) :
    code.inkFrom a < b ∨ b < a ∨ code.inkFrom b = code.inkFrom a := by
  by_cases hab : a ≤ b ∧ b ≤ code.inkFrom a
  · exact .inr (.inr (inkFrom_eq hab.2 (fun i hi hlt => inkAt_of_lt_inkFrom (by omega) hlt) hink))
  · omega

end Bytes

/-- There is only white space between a node and the sibling before it. -/
theorem blank_inlineSlot {code : Bytes} {before xs : List Node} {n : Node} (h : (before, n) ∈ withBefore [] xs)
    (hspaced : code.spaced xs = true) (indent : String) :
    ∀ i, (inlineSlot code before n indent).start ≤ i → i < n.start → code.inkAt i = false := by
  cases before with
  | nil => exact fun i (hle : n.start ≤ i) hlt => by omega
  | cons prev others =>
    obtain ⟨rest, hrest⟩ := mem_withBefore h
    rw [List.reverse_nil, List.nil_append, List.reverse_cons, List.append_assoc] at hrest
    rw [hrest] at hspaced
    have hgap := spaced_append hspaced
    simp only [List.cons_append, List.nil_append, Bytes.spaced, Bool.and_eq_true] at hgap
    exact Bytes.blank_slice_iff.mp hgap.1.2

/-- The code in front of which a comment in the slot of a declaration stands. -/
def Declaration.landing (code : Bytes) (d : Declaration) : Nat := code.inkFrom d.slot.start

/-- A comment on the declaration stands in front of it, or of the construct at the top level that holds it. -/
def SourceTree.Lands (t : SourceTree) (d : Declaration) : Prop :=
  d.landing t.code = d.start ∨ d.kind ≠ .interfaceMethod ∧
    ∃ n ∈ t.root.children, n.start = d.landing t.code ∧ n.start ≤ d.start ∧ d.stop ≤ n.stop

instance (t : SourceTree) (d : Declaration) : Decidable (t.Lands d) :=
  inferInstanceAs (Decidable (d.landing t.code = d.start ∨ d.kind ≠ .interfaceMethod ∧
    ∃ n ∈ t.root.children, n.start = d.landing t.code ∧ n.start ≤ d.start ∧ d.stop ≤ n.stop))

end Docsmith
