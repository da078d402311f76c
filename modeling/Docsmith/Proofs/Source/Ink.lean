import Docsmith.Source.Edit

namespace Docsmith

/-!
# What edits leave of a source

The ink of a source is what it has besides white space.  Edits that replace no ink leave all of it in
the source, in its order.

* `Bytes.sift`: the bytes that a selection by offset keeps.
* `Bytes.ink`: the ink of a source, without that of some spans.
* `Bytes.Inkless`: a stretch of code without ink; `Bytes.Inkless.trans` joins two of them.
* `Bytes.ink_sublist_render`: edits of stretches without ink keep the ink.
-/

namespace Bytes

/-- The bytes that a selection keeps, which sees each of them with its offset. -/
def sift (keep : Nat → UInt8 → Bool) : Nat → Bytes → Bytes
  | _, [] => []
  | i, b :: rest => if keep i b then b :: sift keep (i + 1) rest else sift keep (i + 1) rest

/-- An offset lies in one of some spans. -/
def covered (spans : List (Nat × Nat)) (i : Nat) : Bool :=
  spans.any fun s => s.1 ≤ i && i < s.2

/-- A byte counts as ink: it is no white space, and it lies in none of some spans. -/
def isInk (spans : List (Nat × Nat)) (i : Nat) (b : UInt8) : Bool :=
  !isBlank b && !covered spans i

/-- The ink of a source, without that of some spans. -/
def ink (spans : List (Nat × Nat)) (code : Bytes) : Bytes := sift (isInk spans) 0 code

/-! ### Selections -/

variable {keep : Nat → UInt8 → Bool}

/-- What is kept is part of the whole. -/
theorem sift_sublist (keep : Nat → UInt8 → Bool) (i : Nat) (code : Bytes) :
    (sift keep i code).Sublist code := by
  induction code generalizing i with
  | nil => exact .slnil
  | cons b rest ih =>
    unfold sift
    split
    · exact (ih _).cons_cons b
    · exact (ih _).cons b

/-- A selection of two pieces in a row. -/
theorem sift_append (keep : Nat → UInt8 → Bool) (i : Nat) (a b : Bytes) :
    sift keep i (a ++ b) = sift keep i a ++ sift keep (i + a.length) b := by
  induction a generalizing i with
  | nil => rfl
  | cons x rest ih =>
    have hshift : i + (x :: rest).length = i + 1 + rest.length := by
      rw [List.length_cons]; omega
    simp only [List.cons_append, sift, ih, hshift]
    split <;> rfl

/-- Nothing is kept of bytes that are all refused. -/
theorem sift_eq_nil {i : Nat} {code : Bytes}
    (h : ∀ k b, code[k]? = some b → keep (i + k) b = false) : sift keep i code = [] := by
  induction code generalizing i with
  | nil => rfl
  | cons b rest ih =>
    have hb : keep i b = false := h 0 b rfl
    have hrest : sift keep (i + 1) rest = [] := by
      apply ih
      intro k c hk
      have := h (k + 1) c hk
      rwa [show i + 1 + k = i + (k + 1) by omega]
    simp [sift, hb, hrest]

/-- The stretch between two offsets that are no lower than zero. -/
theorem slice_nat (code : Bytes) (a b : Nat) : code.slice a b = (code.take b).drop a := by
  have hposition : ∀ n : Nat, position code.length (n : Int) = min n code.length := by
    intro n
    simp only [position]
    rw [if_neg (by omega), Int.toNat_natCast]
  have htake : code.take (min b code.length) = code.take b := List.take_eq_take_min.symm
  rw [slice, hposition, hposition, htake]
  by_cases ha : a ≤ code.length
  · rw [Nat.min_eq_left ha]
  · have hlen : (code.take b).length ≤ code.length := List.length_take_le' ..
    rw [Nat.min_eq_right (by omega), List.drop_eq_nil_of_le hlen,
      List.drop_eq_nil_of_le (by omega)]

/-- A selection of the rest of a source falls apart at every offset. -/
theorem sift_drop (keep : Nat → UInt8 → Bool) (code : Bytes) {a b : Nat} (h : a ≤ b) :
    sift keep a (code.drop a) = sift keep a (code.slice a b) ++ sift keep b (code.drop b) := by
  have hsplit : code.drop a = (code.take b).drop a ++ code.drop b := by
    by_cases hb : b ≤ code.length
    · rw [← List.drop_append_of_le_length (by rw [List.length_take]; omega), List.take_append_drop]
    · rw [List.take_of_length_le (by omega), List.drop_eq_nil_of_le (i := b) (by omega),
        List.append_nil]
  rw [slice_nat]
  conv => lhs; rw [hsplit, sift_append]
  by_cases hb : b ≤ code.length
  · rw [List.length_drop, List.length_take, Nat.min_eq_left hb, Nat.add_sub_cancel' h]
  · rw [List.drop_eq_nil_of_le (i := b) (by omega)]
    rfl

/-! ### Stretches without ink -/

/-- There is no ink between two offsets. -/
structure Inkless (spans : List (Nat × Nat)) (code : Bytes) (a b : Nat) : Prop where
  ordered : a ≤ b
  none : sift (isInk spans) a (code.slice a b) = []

variable {spans : List (Nat × Nat)} {code : Bytes} {a b c : Nat}

/-- There is nothing between an offset and itself. -/
theorem Inkless.refl (spans : List (Nat × Nat)) (code : Bytes) (a : Nat) :
    Inkless spans code a a where
  ordered := Nat.le_refl a
  none := by
    rw [slice_nat, List.drop_eq_nil_of_le (List.length_take_le ..)]
    rfl

/-- Two stretches in a row are one. -/
theorem Inkless.trans (h : Inkless spans code a b) (h' : Inkless spans code b c) :
    Inkless spans code a c where
  ordered := Nat.le_trans h.ordered h'.ordered
  none := by
    have hsplit := sift_drop (isInk spans) (code.take c) h.ordered
    have hinner : slice (code.take c) a b = code.slice a b := by
      rw [slice_nat, slice_nat, List.take_take, Nat.min_eq_left h'.ordered]
    rw [← slice_nat, ← slice_nat, hinner, h.none, h'.none] at hsplit
    exact hsplit

/-- White space is no ink. -/
theorem Inkless.of_blank (h : a ≤ b) (hblank : blank (code.slice a b) = true) :
    Inkless spans code a b where
  ordered := h
  none := by
    apply sift_eq_nil
    intro k x hk
    have hx := List.all_eq_true.mp hblank x (List.mem_of_getElem? hk)
    simp [isInk, hx]

/-- A span that is left out has no ink. -/
theorem Inkless.of_mem (h : a ≤ b) (hmem : (a, b) ∈ spans) : Inkless spans code a b where
  ordered := h
  none := by
    apply sift_eq_nil
    intro k x hk
    have hlt : a + k < b := by
      obtain ⟨hlen, -⟩ := List.getElem?_eq_some_iff.mp hk
      rw [slice_nat, List.length_drop, List.length_take] at hlen
      omega
    have hcovered : covered spans (a + k) = true := by
      rw [covered, List.any_eq_true]
      exact ⟨(a, b), hmem, by simp only [Bool.and_eq_true, decide_eq_true_eq]; omega⟩
    simp [isInk, hcovered]

/-! ### Edits -/

/-- An edit replaces no ink. -/
def sparesInk (spans : List (Nat × Nat)) (code : Bytes) (e : Edit) : Prop :=
  ∃ a b : Nat, e.start = a ∧ e.stop = b ∧ Inkless spans code a b

/-- From an offset on, edits that replace no ink keep all of it. -/
theorem ink_sublist_applyEdits {edits : List Edit} (h : ∀ e ∈ edits, sparesInk spans code e)
    (pos : Nat) :
    (sift (isInk spans) pos (code.drop pos)).Sublist (code.applyEdits pos edits) := by
  induction edits generalizing pos with
  | nil =>
    have hrest : code.slice pos code.length = code.drop pos := by
      rw [slice_nat, List.take_length]
    rw [applyEdits, hrest]
    exact sift_sublist ..
  | cons e rest ih =>
    obtain ⟨a, b, hstart, hstop, hinkless⟩ := h e List.mem_cons_self
    have ih' := ih fun x hx => h x (List.mem_cons_of_mem e hx)
    unfold applyEdits
    split
    · exact ih' pos
    · rename_i hpos
      have hle : pos ≤ a := by omega
      -- the code before the edit, the edit itself, and the rest
      rw [hstart, hstop, sift_drop _ code hle, sift_drop _ code hinkless.ordered, hinkless.none,
        List.nil_append]
      exact ((sift_sublist ..).trans (List.sublist_append_left ..)).append (ih' b)

/-- **Edits that replace no ink keep the ink** of a source, in its order. -/
theorem ink_sublist_render {edits : EditSet}
    (h : ∀ x ∈ edits.entries, sparesInk spans code x.2) :
    (code.ink spans).Sublist (edits.render code) := by
  refine ink_sublist_applyEdits (fun e he => ?_) 0
  have hmem : e ∈ edits.entries.map (·.2) := (List.mergeSort_perm _ _).mem_iff.mp he
  obtain ⟨x, hx, rfl⟩ := List.mem_map.mp hmem
  exact h x hx

end Bytes

end Docsmith
