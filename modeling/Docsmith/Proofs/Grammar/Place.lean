import Docsmith.Grammar.Place

namespace Docsmith.Grammar

/-!
# Moving on in a source

* `drop_runLength`, `drop_lineLength`: what comes after a run of bytes, and after a line.
* `rest_advance`, `offset_advance`, `row_advance`: the place some bytes further on.
* `Leads`: a place lies on the way that begins at another one.
* `Sane`: what is left to read is no longer than the source, so that scanners have steps enough.
-/

/-- After a run of bytes of a class comes one that is not of the class. -/
theorem drop_runLength (c : UInt8 → Bool) (bytes : Bytes) :
    bytes.drop (bytes.takeWhile c).length = bytes.dropWhile c := by
  induction bytes with
  | nil => rfl
  | cons b rest ih => by_cases hb : c b = true <;> simp [hb, ih]

/-- A line goes up to a line feed, a zero byte or the end. -/
theorem drop_lineLength (bytes : Bytes) :
    bytes.drop (lineLength bytes) = [] ∨
      ∃ b rest, bytes.drop (lineLength bytes) = b :: rest ∧ (b = 0 ∨ b = Bytes.newline) := by
  rw [lineLength, drop_runLength]
  cases hrest : bytes.dropWhile fun b => b != Bytes.newline && b != 0 with
  | nil => exact .inl rfl
  | cons b rest =>
    have hb := List.head?_dropWhile_not (fun b => b != Bytes.newline && b != 0) bytes
    rw [hrest] at hb
    simp only [List.head?_cons, Bool.and_eq_false_iff, bne_eq_false_iff_eq] at hb
    exact .inr ⟨b, rest, rfl, hb.symm⟩

/-- The longest of some texts at the head of the bytes is there. -/
theorem startsWith_of_longestOf {texts : List String} {bytes : Bytes} {t : String}
    (h : longestOf texts bytes = some t) : startsWith (Text.encode t) bytes = true := by
  unfold longestOf at h
  generalize hbest : (none : Option String) = best at h
  have hnone : ∀ b ∈ best, startsWith (Text.encode b) bytes = true := by
    rw [← hbest]
    intro b hb
    cases hb
  clear hbest
  -- the best text so far is always there
  induction texts generalizing best with
  | nil => exact hnone t h
  | cons u rest ih =>
    rw [List.foldl_cons] at h
    refine ih _ h ?_
    intro b hb
    by_cases hu : startsWith (Text.encode u) bytes = true
    · cases best with
      | none => simp only [hu, Bool.and_true, if_true, Option.mem_some] at hb; rw [← hb]; exact hu
      | some a =>
        dsimp only at hb
        split at hb
        · cases hb; exact hu
        · exact hnone b hb
    · rw [if_neg (by simp [hu])] at hb
      exact hnone b hb

namespace Place

variable {p q r : Place}

@[simp] theorem rest_advance (n : Nat) (p : Place) : (p.advance n).rest = p.rest.drop n := by
  induction n generalizing p with
  | zero => rfl
  | succ n ih =>
    obtain ⟨rest, offset, row, limit⟩ := p
    cases rest with
    | nil => rfl
    | cons b rest => exact ih _

@[simp] theorem limit_advance (n : Nat) (p : Place) : (p.advance n).limit = p.limit := by
  induction n generalizing p with
  | zero => rfl
  | succ n ih =>
    obtain ⟨rest, offset, row, limit⟩ := p
    cases rest with
    | nil => rfl
    | cons b rest => exact ih _

/-- The offset grows by the number of bytes that are there. -/
theorem offset_advance (n : Nat) (p : Place) :
    (p.advance n).offset = p.offset + min n p.rest.length := by
  induction n generalizing p with
  | zero => simp [advance]
  | succ n ih =>
    obtain ⟨rest, offset, row, limit⟩ := p
    cases rest with
    | nil => simp [advance]
    | cons b rest =>
      simp only [advance, ih, List.length_cons]
      omega

/-- The row grows by the number of line feeds that are passed. -/
theorem row_advance (n : Nat) (p : Place) :
    (p.advance n).row = p.row + (p.rest.take n).count Bytes.newline := by
  induction n generalizing p with
  | zero => simp [advance]
  | succ n ih =>
    obtain ⟨rest, offset, row, limit⟩ := p
    cases rest with
    | nil => simp [advance]
    | cons b rest =>
      simp only [advance, ih, List.take_succ_cons, List.count_cons]
      split <;> omega

/-- Moving on twice is moving on once. -/
theorem advance_add (a b : Nat) (p : Place) : (p.advance a).advance b = p.advance (a + b) := by
  induction a generalizing p with
  | zero => simp [advance]
  | succ a ih =>
    obtain ⟨rest, offset, row, limit⟩ := p
    rw [show a + 1 + b = a + b + 1 by omega]
    cases rest with
    | nil =>
      cases b with
      | zero => rfl
      | succ b => rfl
    | cons c rest => exact ih _

/-! ### Places on the way -/

/-- The second place lies some bytes further on. -/
def Leads (p q : Place) : Prop := ∃ n, q = p.advance n

theorem Leads.refl (p : Place) : p.Leads p := ⟨0, rfl⟩

theorem Leads.advance (p : Place) (n : Nat) : p.Leads (p.advance n) := ⟨n, rfl⟩

theorem Leads.trans (h : p.Leads q) (h' : q.Leads r) : p.Leads r := by
  obtain ⟨a, rfl⟩ := h
  obtain ⟨b, rfl⟩ := h'
  exact ⟨a + b, advance_add a b p⟩

/-- Rows only grow. -/
theorem Leads.row_le (h : p.Leads q) : p.row ≤ q.row := by
  obtain ⟨n, rfl⟩ := h
  rw [row_advance]
  omega

/-- Offsets only grow. -/
theorem Leads.offset_le (h : p.Leads q) : p.offset ≤ q.offset := by
  obtain ⟨n, rfl⟩ := h
  rw [offset_advance]
  omega

/-- What is left to read is no longer than the source. -/
def Sane (p : Place) : Prop := p.rest.length ≤ p.limit

theorem sane_origin (code : Bytes) : (origin code).Sane := Nat.le_refl _

theorem Sane.leads (h : p.Sane) (hq : p.Leads q) : q.Sane := by
  obtain ⟨n, rfl⟩ := hq
  unfold Sane at h ⊢
  rw [rest_advance, limit_advance, List.length_drop]
  omega

end Place

end Docsmith.Grammar
