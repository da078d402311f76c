import Docsmith.Proofs.Source.Ink
import Docsmith.Tree.SourceTree

namespace Docsmith

/-!
# Edits that do not meet

Of edits in order, one is dropped that begins inside the one made before it.  When none does, all of them
are made, and what is put in by each can be read in the result.  An edit that is alone leaves the code
before it in its place, and moves the code behind it as a whole.

* `keptFrom_eq_self`: edits that do not meet are all kept.
* `Bytes.infix_applyEdits`: the text of an edit that is kept is in the result.
* `SourceTree.render_edit`: what an edit makes of a source.
* `SourceTree.Leaves`: whatever an edit puts in, a stretch of the code stays as it is, and
  `SourceTree.leaves_before`, `SourceTree.leaves_behind`: so do those outside the edit.
-/

/-- Edits of which each ends before the later ones begin are all kept. -/
theorem keptFrom_eq_self {edits : List Edit} (h : edits.Pairwise fun a b => a.stop ≤ b.start)
    {pos : Int} (hpos : ∀ e ∈ edits, pos ≤ e.start) : keptFrom pos edits = edits := by
  induction edits generalizing pos with
  | nil => rfl
  | cons e rest ih =>
    obtain ⟨he, hrest⟩ := List.pairwise_cons.mp h
    have hstart := hpos e List.mem_cons_self
    rw [keptFrom, if_neg (by omega), ih hrest he]

/-- The text of an edit that is kept is in the result. -/
theorem Bytes.infix_applyEdits (code : Bytes) {edits : List Edit} {pos : Int} {e : Edit}
    (h : e ∈ keptFrom pos edits) : e.text <:+: code.applyEdits pos edits := by
  induction edits generalizing pos with
  | nil => cases h
  | cons x rest ih =>
    unfold keptFrom at h
    unfold applyEdits
    split
    · rename_i hdrop
      rw [if_pos hdrop] at h
      exact ih h
    · rename_i hkeep
      rw [if_neg hkeep] at h
      rcases List.mem_cons.mp h with rfl | h
      · exact ⟨_, _, rfl⟩
      · exact (ih h).trans (List.suffix_append _ _).isInfix

/-! ### One edit -/

namespace SourceTree

variable {t : SourceTree} {key : String} {a b start stop : Nat}

/-- A source with one edit made. -/
theorem render_edit (hclean : t.edits.entries = []) (key : String) (start stop : Nat) (text : Bytes) :
    (t.edit key start stop text).render = t.code.take start ++ text ++ t.code.drop stop := by
  have hordered : (t.edits.edit key ⟨start, stop, text⟩).ordered = [⟨start, stop, text⟩] := by
    simp [EditSet.edit, EditSet.ordered, EditSet.put, hclean]
  have hhead : t.code.slice 0 start = t.code.take start := by
    rw [show (0 : Int) = ((0 : Nat) : Int) from rfl, Bytes.slice_nat, List.drop_zero]
  have htail : t.code.slice stop t.code.length = t.code.drop stop := by
    rw [Bytes.slice_nat, List.take_length]
  rw [render, EditSet.render, edit, hordered]
  simp only [Bytes.applyEdits]
  rw [if_neg (by omega), hhead, htail]

/-- Whatever an edit puts in the place of some code, the code from `a` to `b` stays as it is, where it was
    or as far behind the new code as it was behind the old. -/
def Leaves (t : SourceTree) (key : String) (start stop a b : Nat) : Prop :=
  ∀ text : Bytes, ∃ a' : Nat,
    (t.edit key start stop text).render.slice a' (a' + (b - a) : Nat) = t.code.slice a b ∧
      (b ≤ start ∧ a' = a ∨ stop ≤ a ∧ a' = start + text.length + (a - stop))

/-- An edit leaves the code before it in its place. -/
theorem leaves_before (hclean : t.edits.entries = []) (hab : a ≤ b) (hb : b ≤ start)
    (hstart : start ≤ t.code.length) : t.Leaves key start stop a b := by
  intro text
  refine ⟨a, ?_, .inl ⟨hb, rfl⟩⟩
  rw [render_edit hclean, Bytes.slice_nat, Bytes.slice_nat, Nat.add_sub_cancel' hab, List.append_assoc,
    List.take_append_of_le_length (by rw [List.length_take]; omega), List.take_take,
    Nat.min_eq_left hb]

/-- An edit leaves the code behind it as it is. -/
theorem leaves_behind (hclean : t.edits.entries = []) (ha : stop ≤ a)
    (hstart : start ≤ t.code.length) : t.Leaves key start stop a b := by
  intro text
  refine ⟨start + text.length + (a - stop), ?_, .inr ⟨ha, rfl⟩⟩
  have hlength : (t.code.take start ++ text).length = start + text.length := by
    rw [List.length_append, List.length_take, Nat.min_eq_left hstart]
  rw [render_edit hclean, Bytes.slice_nat, Bytes.slice_nat, List.drop_take, List.drop_take,
    Nat.add_sub_cancel_left, ← hlength, ← List.drop_drop, List.drop_left, List.drop_drop,
    Nat.add_sub_cancel' ha]

end SourceTree

end Docsmith
