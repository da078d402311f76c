import Docsmith.Proofs.Source.Ink
import Docsmith.Source.Line

namespace Docsmith

/-!
# Edits that delete

* `Bytes.lineStart_le`, `Bytes.le_lineEnd`, `Bytes.lineEnd_le`: a line holds the offset that it is
  of.
* `Bytes.removalRange_spec`: what goes with a piece of code holds this piece.
* `Edit.Deletes`: an edit takes some of the code away and puts nothing in its place.
* `EditSet.render_shorter`: such edits make a source shorter.
-/

namespace Bytes

variable {code : Bytes}

theorem position_nat (size n : Nat) : position size (n : Int) = min n size := by
  simp only [position]
  rw [if_neg (by omega), Int.toNat_natCast]

/-- A line begins at the offset that it is of or before. -/
theorem lineStart_le (code : Bytes) (n : Nat) : code.lineStart n ≤ n := by
  unfold lineStart throughLastNewline
  have hline := ((code.take (position code.length n)).reverse.dropWhile_sublist
    (· != newline)).length_le
  rw [List.length_reverse, List.length_take] at hline
  have hposition := position_nat code.length n
  omega

theorem throughFirstNewline_le (code : Bytes) : code.throughFirstNewline ≤ code.length := by
  unfold throughFirstNewline
  split <;> omega

/-- A line ends behind the offset that it is of, or at it. -/
theorem le_lineEnd {n : Nat} (h : n ≤ code.length) : n ≤ code.lineEnd n := by
  unfold lineEnd
  dsimp only
  rw [position_nat]
  omega

theorem lineEnd_le (code : Bytes) (n : Nat) : code.lineEnd n ≤ code.length := by
  unfold lineEnd
  dsimp only
  rw [position_nat]
  have hline := throughFirstNewline_le (code.drop (min n code.length))
  rw [List.length_drop] at hline
  omega

theorem length_trimRight_le (code : Bytes) : (trimRight code).length ≤ code.length := by
  unfold trimRight
  have := (code.reverse.dropWhile_sublist isBlank).length_le
  simpa using this

/-- What goes with a piece of code holds this piece, and lies in the code. -/
theorem removalRange_spec {start stop : Nat} (hstart : start ≤ stop) (hstop : stop ≤ code.length) :
    ∃ a b : Nat, code.removalRange start stop = ((a : Int), (b : Int)) ∧
      a ≤ start ∧ stop ≤ b ∧ b ≤ code.length := by
  have hfirst := lineStart_le code start
  have hbefore : (trimRight (code.slice (code.lineStart start) start)).length
      ≤ start - code.lineStart start := by
    refine Nat.le_trans (length_trimRight_le _) ?_
    rw [slice_nat, List.length_drop, List.length_take]
    omega
  unfold removalRange
  dsimp only
  split
  · exact ⟨_, _, rfl, hfirst, le_lineEnd hstop, lineEnd_le code stop⟩
  split
  · exact ⟨_, _, rfl, by omega, Nat.le_refl _, hstop⟩
  · exact ⟨_, _, rfl, Nat.le_refl _, Nat.le_refl _, hstop⟩

end Bytes

/-- The edit takes some of the code away and puts nothing in its place. -/
def Edit.Deletes (code : Bytes) (e : Edit) : Prop :=
  ∃ a b : Nat, a < b ∧ b ≤ code.length ∧ e = ⟨a, b, []⟩

namespace Bytes

variable {code : Bytes}

/-- From an offset on, deletions leave no more than there was. -/
theorem length_applyEdits_le {edits : List Edit} (h : ∀ e ∈ edits, e.Deletes code) {pos : Nat}
    (hpos : pos ≤ code.length) : (code.applyEdits pos edits).length ≤ code.length - pos := by
  induction edits generalizing pos with
  | nil =>
    exact Nat.le_of_eq (by rw [applyEdits, slice_nat, List.take_length, List.length_drop])
  | cons e rest ih =>
    obtain ⟨a, b, hab, hb, rfl⟩ := h e List.mem_cons_self
    have hrest : ∀ x ∈ rest, x.Deletes code := fun x hx => h x (List.mem_cons_of_mem _ hx)
    unfold applyEdits
    split
    · exact ih hrest hpos
    · rename_i hle
      have hle' : pos ≤ a := by simpa using hle
      have hlater := ih hrest hb
      simp only [slice_nat, List.append_nil, List.length_append, List.length_drop, List.length_take]
      omega

end Bytes

/-- **Deletions make a source shorter.** -/
theorem EditSet.render_shorter {code : Bytes} {edits : EditSet}
    (h : ∀ x ∈ edits.entries, x.2.Deletes code) (hdirty : edits.dirty = true) :
    (edits.render code).length < code.length := by
  have hordered : ∀ e ∈ edits.ordered, e.Deletes code := by
    intro e he
    have hmem : e ∈ edits.entries.map (·.2) := (List.mergeSort_perm _ _).mem_iff.mp he
    obtain ⟨x, hx, rfl⟩ := List.mem_map.mp hmem
    exact h x hx
  unfold EditSet.render
  cases hall : edits.ordered with
  | nil =>
    have hlength : edits.entries.length = 0 := by
      have := congrArg List.length hall
      simpa [EditSet.ordered] using this
    simp [EditSet.dirty, List.length_eq_zero_iff.mp hlength] at hdirty
  | cons e rest =>
    rw [hall] at hordered
    obtain ⟨a, b, hab, hb, rfl⟩ := hordered e List.mem_cons_self
    have hrest : ∀ x ∈ rest, x.Deletes code := fun x hx => hordered x (List.mem_cons_of_mem _ hx)
    have hlater := Bytes.length_applyEdits_le hrest hb
    -- the first deletion is made in any case
    have hfirst : ¬ ((a : Int) < 0) := by omega
    unfold Bytes.applyEdits
    rw [if_neg hfirst]
    have hbefore : (code.slice 0 (a : Int)).length ≤ a := by
      rw [show (0 : Int) = ((0 : Nat) : Int) from rfl, Bytes.slice_nat, List.drop_zero]
      exact List.length_take_le a code
    simp only [List.append_nil, List.length_append]
    omega

end Docsmith
