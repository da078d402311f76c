import Docsmith.Proofs.Source.Deletions
import Mathlib.Tactic.ByContra

namespace Docsmith.Bytes

/-!
# Rows and lines

The row of an offset is the number of line feeds before it.  Offsets with nothing but other bytes
between them are on one row, and what ends on the row of an offset that begins its line ends before that
line, unless it shows on it.

* `rowAt`: the row of an offset.
* `rowAt_eq_iff`: two offsets are on one row if there is no line feed between them.
* `Shows`: a stretch of code shows on the line where it ends.
* `le_lineStart`: what shows on its last line does not reach into the white space before the start of a
  line's code.
* `lineEnd_le_of_row`: a line ends before what is on a later row.
-/

/-- The row of an offset, counted from zero. -/
def rowAt (code : Bytes) (offset : Nat) : Nat := (code.take offset).count newline

variable {code : Bytes} {a b n : Nat}

/-- The line feeds before an offset are those before an earlier one, and those between them. -/
theorem rowAt_add (code : Bytes) (h : a ≤ b) :
    code.rowAt b = code.rowAt a + ((code.take b).drop a).count newline := by
  have hsplit : code.take b = code.take a ++ (code.take b).drop a := by
    conv => lhs; rw [← List.take_append_drop a (code.take b), List.take_take, Nat.min_eq_left h]
  unfold rowAt
  conv => lhs; rw [hsplit, List.count_append]

theorem rowAt_mono (code : Bytes) (h : a ≤ b) : code.rowAt a ≤ code.rowAt b := by
  rw [rowAt_add code h]
  omega

/-- Two offsets are on one row if there is no line feed between them. -/
theorem rowAt_eq_iff (code : Bytes) (h : a ≤ b) :
    code.rowAt a = code.rowAt b ↔ newline ∉ (code.take b).drop a := by
  have hrow := rowAt_add code h
  rw [← List.count_eq_zero]
  omega

/-- A byte between two offsets is one of those between them. -/
theorem mem_between {i : Nat} {x : UInt8} (hx : code[i]? = some x) (ha : a ≤ i) (hb : i < b) :
    x ∈ (code.take b).drop a := by
  refine List.mem_of_getElem? (i := i - a) ?_
  rw [List.getElem?_drop, List.getElem?_take, if_pos (by omega)]
  rwa [Nat.add_sub_cancel' ha]

/-! ### The start of a line -/

theorem lineStart_nat (code : Bytes) (n : Nat) :
    code.lineStart n = throughLastNewline (code.take n) := by
  rw [lineStart, position_nat, ← List.take_eq_take_min]

/-- What follows the last line feed has none, and begins with the source or after that line feed. -/
theorem throughLastNewline_spec (code : Bytes) :
    newline ∉ code.drop code.throughLastNewline ∧
      (code.throughLastNewline = 0 ∨ code[code.throughLastNewline - 1]? = some newline) := by
  have hsplit : (code.reverse.dropWhile (· != newline)).reverse
      ++ (code.reverse.takeWhile (· != newline)).reverse = code := by
    rw [← List.reverse_append, List.takeWhile_append_dropWhile, List.reverse_reverse]
  have hlast : newline ∉ (code.reverse.takeWhile (· != newline)).reverse := by
    rw [List.mem_reverse]
    intro hmem
    have hne := List.all_eq_true.mp (List.all_takeWhile (p := (· != newline))) _ hmem
    simp at hne
  have hhead := List.head?_dropWhile_not (· != newline) code.reverse
  have hlength : code.throughLastNewline
      = (code.reverse.dropWhile (· != newline)).reverse.length := by
    rw [throughLastNewline, List.length_reverse]
  rw [hlength]
  -- the source is what goes up to the last line feed and what follows it
  generalize (code.reverse.takeWhile (· != newline)).reverse = after at hsplit hlast
  generalize code.reverse.dropWhile (· != newline) = before at hsplit hhead ⊢
  subst hsplit
  constructor
  · rwa [List.drop_left]
  · cases before with
    | nil => exact .inl rfl
    | cons x rest =>
      have hx : x = newline := by simpa using hhead
      right
      simp [hx]

/-- There is no line feed between the start of a line and an offset on it. -/
theorem newline_not_mem_line (code : Bytes) (n : Nat) :
    newline ∉ (code.take n).drop (code.lineStart n) := by
  rw [lineStart_nat]
  exact (throughLastNewline_spec (code.take n)).1

/-- What lies on the line before an offset is on its row. -/
theorem rowAt_of_lineStart (h : code.lineStart n ≤ a) (hn : a ≤ n) : code.rowAt a = code.rowAt n := by
  rw [rowAt_eq_iff code hn]
  intro hmem
  refine newline_not_mem_line code n ?_
  have hdrop : (code.take n).drop a = ((code.take n).drop (code.lineStart n)).drop (a - code.lineStart n) := by
    rw [List.drop_drop, Nat.add_sub_cancel' h]
  rw [hdrop] at hmem
  exact List.mem_of_mem_drop hmem

/-- What lies before the line of an offset is on an earlier row. -/
theorem rowAt_lt_of_lineStart {i : Nat} (hi : i < code.lineStart n) : code.rowAt i < code.rowAt n := by
  have hstart := lineStart_le code n
  have hfeed : code[code.lineStart n - 1]? = some newline := by
    rcases (throughLastNewline_spec (code.take n)).2 with hzero | hfeed
    · rw [← lineStart_nat] at hzero
      omega
    · rw [← lineStart_nat, List.getElem?_take, if_pos (by omega)] at hfeed
      exact hfeed
  have hmem : newline ∈ (code.take n).drop i := mem_between hfeed (by omega) (by omega)
  have hle := rowAt_mono code (a := i) (b := n) (by omega)
  rcases Nat.lt_or_eq_of_le hle with hlt | heq
  · exact hlt
  · exact absurd hmem ((rowAt_eq_iff code (by omega)).mp heq)

/-- A stretch of code shows on the line where it ends: there is a byte of it on this line that is no
    white space, or the stretch ends the line. -/
def Shows (code : Bytes) (a b : Nat) : Prop :=
  ∃ i x, a ≤ i ∧ i < b ∧ code[i]? = some x ∧
    (isBlank x = false ∧ code.rowAt i = code.rowAt b ∨ x = newline ∧ i + 1 = b)

/-- What shows where it ends does so from any earlier offset on. -/
theorem Shows.mono {a' : Nat} (h : code.Shows a b) (ha : a' ≤ a) : code.Shows a' b := by
  obtain ⟨i, x, hi, hrest⟩ := h
  exact ⟨i, x, Nat.le_trans ha hi, hrest⟩

/-- A stretch shows if its last byte is no white space. -/
theorem shows_of_last {x : UInt8} (h : a < b) (hx : code[b - 1]? = some x) (hblank : isBlank x = false) :
    code.Shows a b := by
  refine ⟨b - 1, x, by omega, by omega, hx, .inl ⟨hblank, ?_⟩⟩
  rw [rowAt_eq_iff code (by omega)]
  have honly : (code.take b).drop (b - 1) = [x] := by
    have hlen : b - 1 < code.length := (List.getElem?_eq_some_iff.mp hx).1
    have htake : code.take b = code.take (b - 1) ++ [x] := by
      rw [show b = b - 1 + 1 by omega, List.take_add_one, hx]
      rfl
    rw [htake, List.drop_append_of_le_length (by rw [List.length_take]; omega),
      List.drop_eq_nil_of_le (by rw [List.length_take]; omega), List.nil_append]
  rw [honly, List.mem_singleton]
  rintro rfl
  cases hblank

/-- **What shows on its last line does not reach into the white space before code**: it ends before the
    line of an offset that begins its line. -/
theorem le_lineStart (hstarts : code.startsLine n = true) (hn : b ≤ n)
    (hshows : code.rowAt b = code.rowAt n → code.Shows a b) : b ≤ code.lineStart n := by
  by_contra hlt
  have hrow : code.rowAt b = code.rowAt n := rowAt_of_lineStart (by omega) hn
  obtain ⟨i, x, -, hi, hx, hcases⟩ := hshows hrow
  have hline : code.lineStart n ≤ i := by
    by_contra hbefore
    rcases hcases with ⟨-, hsame⟩ | ⟨-, hend⟩
    · have hearlier : code.rowAt i < code.rowAt n := rowAt_lt_of_lineStart (by omega)
      omega
    · omega
  have hmem : x ∈ (code.take n).drop (code.lineStart n) := mem_between hx hline (by omega)
  rcases hcases with ⟨hdark, -⟩ | ⟨rfl, -⟩
  · rw [startsLine, beforeOnLine, slice_nat, blank, List.all_eq_true] at hstarts
    rw [hstarts x hmem] at hdark
    cases hdark
  · exact newline_not_mem_line code n hmem

/-! ### The end of a line -/

/-- The first line feed is found where there is one. -/
theorem throughFirstNewline_le_of_mem {xs : Bytes} {m : Nat} (h : newline ∈ xs.take m) :
    xs.throughFirstNewline ≤ m := by
  have hsplit := List.takeWhile_append_dropWhile (p := (· != newline)) (l := xs)
  have hlength := congrArg List.length hsplit
  rw [List.length_append] at hlength
  -- the line feed is found within the first `m` bytes, so the part before it is shorter
  have hshort : (xs.takeWhile (· != newline)).length < m := by
    by_contra hle
    have htake : xs.take m = (xs.takeWhile (· != newline)).take m := by
      conv => lhs; rw [← hsplit]
      exact List.take_append_of_le_length (by omega)
    rw [htake] at h
    have hne := List.all_eq_true.mp (List.all_takeWhile (p := (· != newline)) (l := xs)) _
      (List.mem_of_mem_take h)
    simp at hne
  unfold throughFirstNewline
  cases hrest : xs.dropWhile (· != newline) with
  | nil =>
    rw [hrest, List.append_nil] at hsplit
    rw [hrest, List.length_nil] at hlength
    dsimp only
    omega
  | cons x rest =>
    rw [hrest, List.length_cons] at hlength
    dsimp only
    omega

/-- **A line ends before what is on a later row.** -/
theorem lineEnd_le_of_row (h : code.rowAt a < code.rowAt n) : code.lineEnd a ≤ n := by
  have hlt : a < n := by
    by_contra hle
    have hmono := rowAt_mono code (a := n) (b := a) (by omega)
    omega
  -- the rows differ, so between the two places stands a line feed, and the line of `a` ends there
  have hmem : newline ∈ (code.drop a).take (n - a) := by
    rw [← List.drop_take]
    by_contra hnot
    have hsame := (rowAt_eq_iff code (by omega)).mpr hnot
    omega
  have hlength : a < code.length := by
    by_contra hle
    rw [List.drop_eq_nil_of_le (by omega), List.take_nil] at hmem
    cases hmem
  have hfeed := throughFirstNewline_le_of_mem hmem
  unfold lineEnd
  dsimp only
  rw [position_nat, Nat.min_eq_left (by omega)]
  omega

end Docsmith.Bytes
