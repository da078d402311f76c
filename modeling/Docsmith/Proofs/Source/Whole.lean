import Docsmith.Proofs.Grammar.Run
import Docsmith.Proofs.Source.Removal
import Docsmith.Proofs.Text.Spelling

namespace Docsmith.Bytes

/-!
# Offsets that cut no character

A source that is text falls apart at an offset unless the byte there continues a character.  So it does on both
sides of a byte of ASCII, behind a name, and at the ends of a line.

* `Whole`: no character of a text is cut at an offset.
* `Whole.step`, `Whole.after`, `whole_name`: it is not at the end of a character, behind a byte of ASCII, and
  behind a name.
* `whole_lineStart`, `whole_lineEnd`, `whole_cut`: it is not at the ends of lines, and of what goes with a piece
  of code.
* `Dark`: what begins at an offset is no white space, and `dark_of_graph`, `dark_of_name`: visible bytes and
  names do so.
-/

open Grammar Text

variable {code rest : Bytes} {a x : UInt8} {i n : Nat}

/-- If the source is text, no character of it is cut at the offset. -/
def Whole (code : Bytes) (i : Nat) : Prop :=
  ∀ cs, decodeChars code = .ok cs → ∀ x ∈ code[i]?, isContinuation x = false

theorem whole_zero (code : Bytes) : code.Whole 0 := fun _ h => (decodeChars_eq_ok.mp h).head

theorem whole_of_le (h : code.length ≤ i) : code.Whole i := by
  intro cs _ x hx
  rw [List.getElem?_eq_none h] at hx
  cases hx

/-- No character is cut before a byte of ASCII. -/
theorem Whole.before (hx : code[i]? = some x) (hascii : x < 0x80) : code.Whole i := by
  intro cs _ y hy
  rw [hx] at hy
  cases hy
  exact isContinuation_of_lt hascii

/-- No character is cut behind a byte of ASCII. -/
theorem Whole.after (hx : code[i]? = some x) (hascii : x < 0x80) : code.Whole (i + 1) :=
  fun _ h => (decodeChars_eq_ok.mp h).after_ascii hx hascii

theorem whole_of_last (hn : n ≠ 0) (hx : code[n - 1]? = some x) (hascii : x < 0x80) : code.Whole n := by
  have hnext := Whole.after hx hascii
  rwa [Nat.sub_add_cancel (Nat.one_le_iff_ne_zero.mpr hn)] at hnext

/-- **No character is cut behind a character.** -/
theorem Whole.step {size c : Nat} (h : code.Whole i) (hdrop : code.drop i = a :: rest)
    (hread : Rune.read a rest = .char c size) : code.Whole (i + size) := by
  intro cs hcs
  obtain ⟨-, as, -, -, hspells⟩ := (decodeChars_eq_ok.mp hcs).split (h cs hcs)
  rw [hdrop] at hspells
  obtain ⟨c', size', cs', hread', -, hrest⟩ := hspells.first
  rw [hread, Rune.char.injEq] at hread'
  obtain ⟨-, tail, more, hsplit, hsize, -, -⟩ := Rune.read_char hread
  have hafter : rest.drop (size' - 1) = code.drop (i + size) := by
    rw [← List.drop_drop, hdrop, ← hread'.2, hsize, Nat.add_sub_cancel, List.drop_succ_cons]
  have hhead := hrest.head
  rwa [hafter, List.getElem?_drop, Nat.add_zero] at hhead

/-! ### Names -/

/-- No character is cut behind what goes on a name. -/
theorem whole_nameRest {skip : Nat} {bytes : Bytes} (hbytes : bytes = code.drop i)
    (h : code.Whole (i + skip)) : code.Whole (i + nameRestLength skip bytes) := by
  -- the induction reads on byte by byte, so each case begins one byte further in the code
  have hnext {x : UInt8} {rest : Bytes} {i : Nat} (hbytes : x :: rest = code.drop i) :
      rest = code.drop (i + 1) := by
    rw [← List.drop_drop, ← hbytes]
    rfl
  fun_induction nameRestLength skip bytes generalizing i with
  | case1 => exact whole_of_le (by simpa using List.drop_eq_nil_iff.mp hbytes.symm)
  | case2 skip x rest ih =>
    have hrest := ih (hnext hbytes) (by rwa [Nat.add_assoc, Nat.add_comm 1])
    rwa [Nat.add_assoc, Nat.add_comm 1] at hrest
  -- a rune of the name is read as a whole, and the place behind it starts a character again
  | case3 x rest c size hread hname ih =>
    obtain ⟨-, tail, more, -, rfl, -, -⟩ := Rune.read_char hread
    have hchar := h.step hbytes.symm hread
    have hrest := ih (hnext hbytes) (by
      rwa [Nat.add_sub_cancel, Nat.add_assoc, Nat.add_comm 1])
    rwa [Nat.add_assoc, Nat.add_comm 1] at hrest
  | case4 => exact h
  | case5 => exact h

/-- **No character is cut behind a name.** -/
theorem whole_name (h : code.Whole i) : code.Whole (i + nameLength (code.drop i)) := by
  cases hdrop : code.drop i with
  | nil => exact h
  | cons a rest =>
    rw [nameLength]
    split
    · rename_i c size hread
      split
      -- the first rune is read apart from the rest of the name
      · obtain ⟨-, tail, more, -, rfl, -, -⟩ := Rune.read_char hread
        have hrest : rest = code.drop (i + 1) := by
          rw [← List.drop_drop, hdrop]
          rfl
        have hchar := h.step hdrop hread
        have hname : code.Whole (i + 1 + nameRestLength tail.length rest) :=
          whole_nameRest hrest (by rwa [Nat.add_assoc, Nat.add_comm 1])
        rwa [Nat.add_sub_cancel, ← Nat.add_assoc, Nat.add_right_comm]
      · exact h
    · exact h

/-! ### Lines -/

theorem newline_ascii : newline < 0x80 := by decide

theorem whole_lineStart (code : Bytes) (n : Nat) : code.Whole (code.lineStart n) := by
  have hstart := lineStart_le code n
  rcases (throughLastNewline_spec (code.take n)).2 with hzero | hfeed
  · rw [← lineStart_nat] at hzero
    rw [hzero]
    exact whole_zero code
  · rw [← lineStart_nat] at hfeed
    by_cases hzero : code.lineStart n = 0
    · rw [hzero]
      exact whole_zero code
    · rw [List.getElem?_take, if_pos (by omega)] at hfeed
      exact whole_of_last hzero hfeed newline_ascii

/-- What goes up to the first line feed ends with it, unless there is none. -/
theorem throughFirstNewline_spec (xs : Bytes) : xs.throughFirstNewline = xs.length ∨
    xs.throughFirstNewline ≠ 0 ∧ xs[xs.throughFirstNewline - 1]? = some newline := by
  have hsplit := List.takeWhile_append_dropWhile (p := (· != newline)) (l := xs)
  have hhead := List.head?_dropWhile_not (· != newline) xs
  unfold throughFirstNewline
  generalize xs.takeWhile (· != newline) = before at hsplit
  generalize xs.dropWhile (· != newline) = after at hsplit hhead ⊢
  cases after with
  | nil => exact .inl rfl
  | cons y rest =>
    have hy : y = newline := by simpa using hhead
    have hlength : xs.length - rest.length = before.length + 1 := by
      rw [← hsplit, List.length_append, List.length_cons]
      omega
    dsimp only
    rw [hlength, Nat.add_sub_cancel, ← hsplit, List.getElem?_append_right (Nat.le_refl _), Nat.sub_self, hy]
    exact .inr ⟨by omega, rfl⟩

theorem whole_lineEnd (code : Bytes) (n : Nat) : code.Whole (code.lineEnd n) := by
  unfold lineEnd
  dsimp only
  rw [position_nat]
  generalize hm : min n code.length = m
  rcases throughFirstNewline_spec (code.drop m) with hall | ⟨hne, hfeed⟩
  · refine whole_of_le ?_
    rw [hall, List.length_drop]
    omega
  · rw [List.getElem?_drop, ← Nat.add_sub_assoc (by omega)] at hfeed
    exact whole_of_last (by omega) hfeed newline_ascii

/-! ### Pieces of code -/

theorem ascii_of_isBlank (h : isBlank x = true) : x < 0x80 := by
  simp only [isBlank, Bool.or_eq_true, Bool.and_eq_true, beq_iff_eq, decide_eq_true_eq] at h
  rcases h with rfl | h
  · decide
  · exact UInt8.lt_of_le_of_lt h.2 (by decide)

theorem ascii_of_isGraph (h : isGraph x = true) : x < 0x80 := by
  simp only [isGraph, Bool.and_eq_true, decide_eq_true_eq] at h
  exact UInt8.lt_trans h.2 (by decide)

/-- No character is cut where the white space before an offset begins. -/
theorem whole_padStart (h : code.Whole n) (hn : n ≤ code.length) : code.Whole (code.padStart n) := by
  have hle := padStart_le code n
  by_cases heq : code.padStart n = n
  · rwa [heq]
  · have hx := List.getElem?_eq_getElem (l := code) (i := code.padStart n) (by omega)
    have hblank := Option.any_eq_false _ _ |>.mp (boundAt_pad (Nat.le_refl _) (by omega)) _ hx
    rw [Bool.or_eq_false_iff, Bool.not_eq_false'] at hblank
    exact .before hx (ascii_of_isBlank hblank.1)

/-- **No character is cut at the ends of what goes with a piece of code**, if none is at the ends of it. -/
theorem whole_cut {s : Nat × Nat} (hstart : code.Whole s.1) (hstop : code.Whole s.2) (hle : s.1 ≤ code.length) :
    code.Whole (code.cut s).1 ∧ code.Whole (code.cut s).2 := by
  have hpad := whole_padStart hstart hle
  unfold cut
  split
  · split
    · exact ⟨hpad, whole_lineEnd code s.2⟩
    · exact ⟨hpad, hstop⟩
  · exact ⟨hstart, hstop⟩

/-! ### What begins at an offset -/

/-- The byte at the offset is no white space, and neither is the character that it begins. -/
def Dark (code : Bytes) (i : Nat) : Prop :=
  ∃ a rest, code.drop i = a :: rest ∧ isBlank a = false ∧
    ∀ c size, Rune.read a rest = .char c size → Text.isBlank (Char.ofNat c) = false

/-- The code of the character of a number is this number, or zero. -/
theorem toNat_ofNat_cases (c : Nat) : (Char.ofNat c).toNat = c ∨ (Char.ofNat c).toNat = 0 := by
  by_cases h : c.isValidChar
  · rw [Char.ofNat, dif_pos h]
    exact .inl rfl
  · rw [Char.ofNat, dif_neg h]
    exact .inr rfl

/-- A visible byte of ASCII is a character that is no white space. -/
theorem isBlank_ofNat_of_isGraph (h : isGraph x = true) : Text.isBlank (Char.ofNat x.toNat) = false := by
  simp only [isGraph, Bool.and_eq_true, decide_eq_true_eq, UInt8.le_iff_toNat_le, UInt8.lt_iff_toNat_lt,
    UInt8.reduceToNat] at h
  rw [Text.isBlank]
  rcases toNat_ofNat_cases x.toNat with hcode | hcode <;> rw [hcode]
  · rw [if_pos (by omega)]
    simp only [Bool.or_eq_false_iff, Bool.and_eq_false_iff, decide_eq_false_iff_not]
    omega
  · rfl

/-- **What begins with a visible byte is no white space.** -/
theorem dark_of_graph (hx : code[i]? = some x) (h : isGraph x = true) : code.Dark i := by
  obtain ⟨hlength, rfl⟩ := List.getElem?_eq_some_iff.mp hx
  refine ⟨code[i], code.drop (i + 1), List.drop_eq_getElem_cons hlength, isBlank_of_isGraph h,
    fun c size hread => ?_⟩
  rw [read_ascii (ascii_of_isGraph h), Rune.char.injEq] at hread
  rw [← hread.1]
  exact isBlank_ofNat_of_isGraph h

/-- No name begins with white space. -/
theorem isBlank_of_isNameStart {c : Nat} (h : isNameStart c = true) : Text.isBlank (Char.ofNat c) = false := by
  by_contra hblank
  rw [Bool.not_eq_false, Text.isBlank] at hblank
  rcases toNat_ofNat_cases c with hcode | hcode <;> rw [hcode] at hblank
  · by_cases hascii : c < 0x80
    · simp only [isNameStart, hascii, if_true, Bool.or_eq_true, Bool.and_eq_true, decide_eq_true_eq,
        beq_iff_eq] at h hblank
      omega
    · -- none of the white space above ASCII is in a range of letters
      have hnone : ∀ n ∈ [0x85, 0xa0, 0x1680, 0x2000, 0x2001, 0x2002, 0x2003, 0x2004, 0x2005, 0x2006, 0x2007,
          0x2008, 0x2009, 0x200a, 0x2028, 0x2029, 0x202f, 0x205f, 0x3000],
          inRanges nameStartRanges n = false := by decide +kernel
      simp only [hascii, if_false, Bool.or_eq_true, Bool.and_eq_true, decide_eq_true_eq, beq_iff_eq] at hblank
      rw [isNameStart, if_neg hascii, hnone c (by simp only [List.mem_cons]; omega)] at h
      cases h
  · cases hblank

/-- **What begins with a name is no white space.** -/
theorem dark_of_name (h : nameLength (code.drop i) ≠ 0) : code.Dark i := by
  cases hdrop : code.drop i with
  | nil => rw [hdrop] at h; exact absurd rfl h
  | cons a rest =>
    have hink : Inked (a :: rest) (nameLength (a :: rest)) := inked_name (a :: rest)
    rw [hdrop, nameLength] at h
    refine ⟨a, rest, hdrop, ?_, fun c size hread => ?_⟩
    · obtain ⟨x, hx, hblank⟩ := (hink.ends (by rwa [nameLength])).1
      cases hx
      exact hblank
    · rw [hread] at h
      dsimp only at h
      split at h
      · exact isBlank_of_isNameStart ‹_›
      · exact absurd rfl h

end Docsmith.Bytes
