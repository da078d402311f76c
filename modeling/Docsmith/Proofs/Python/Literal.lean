import Docsmith.Proofs.Python.Tokens
import Docsmith.Proofs.Source.Whole

namespace Docsmith.Python

/-!
# How tokens of Python end

A number has no white space in it, and the delimiters of a string literal are visible.  What is between them goes up
to a delimiter or a brace.

* `graph_number`: a number consists of visible bytes.
* `openAt?_spec`, `closesAt_getElem?`, `measure?_next`: the delimiters of a string literal, and its text.
* `Found`, `scan_found`: what a form finds.
-/

open Grammar

variable {bytes rest : Bytes} {n : Nat} {x : UInt8} {q : Quote}

/-! ### Numbers -/

/-- One byte of a class is at the head, or none is. -/
theorem oneOf_cases (p : UInt8 → Bool) (bytes : Bytes) :
    oneOf p bytes = 0 ∨ oneOf p bytes = 1 ∧ ∃ x rest, bytes = x :: rest ∧ p x = true := by
  unfold oneOf
  split
  · split
    · exact .inr ⟨rfl, _, _, rfl, ‹_›⟩
    · exact .inl rfl
  · exact .inl rfl

section Classes

variable {p : UInt8 → Bool} (hp : ∀ x, p x = true → isGraph x = true)

include hp

theorem graph_oneOf (bytes : Bytes) : Graph bytes (oneOf p bytes) := by
  rcases oneOf_cases p bytes with hnone | ⟨hone, x, rest, rfl, hx⟩
  · rw [hnone]
    exact .zero _
  · rw [hone]
    exact .cons (hp x hx) (.zero _)

theorem graph_looseDigits (bytes : Bytes) : Graph bytes (looseDigits p bytes) := by
  fun_induction looseDigits p bytes with
  | case1 => exact .zero _
  | case2 a ha b more hb ih =>
    rw [beq_iff_eq.mp hb]
    exact .cons (hp a ha) (.cons (by decide) ih)
  | case3 a ha b more hb ih => exact .cons (hp a ha) ih
  | case4 a ha => exact .cons (hp a ha) (.zero _)
  | case5 => exact .zero _

end Classes

/-- One of two visible bytes is visible. -/
theorem isGraph_of_or {a b : UInt8} (hx : (x == a || x == b) = true) (ha : isGraph a = true)
    (hb : isGraph b = true) : isGraph x = true := by
  rw [Bool.or_eq_true, beq_iff_eq, beq_iff_eq] at hx
  rcases hx with rfl | rfl
  · exact ha
  · exact hb

theorem graph_based (bytes : Bytes) : Graph bytes (basedLength bytes) := by
  unfold basedLength
  split
  · rename_i z m rest
    dsimp only
    split
    · exact .zero _
    · rename_i hz
      have hzero : z = 0x30 := by simpa using hz
      -- the zero and the marker, perhaps an underscore, and digits of a class
      have hdigits (p : UInt8 → Bool) (hp : ∀ x, p x = true → isGraph x = true) (hm : isGraph m = true) :
          Graph (z :: m :: rest)
            (if digitsLength p (rest.drop (oneOf (· == 0x5f) rest)) == 0 then 0
              else digitsLength p (rest.drop (oneOf (· == 0x5f) rest)) + oneOf (· == 0x5f) rest + 2) := by
        split
        · exact .zero _
        · have hlead : Graph rest (oneOf (· == 0x5f) rest) :=
            graph_oneOf (fun x hx => by rw [beq_iff_eq.mp hx]; decide) rest
          rw [Nat.add_comm (digitsLength _ _)]
          exact .cons (by rw [hzero]; decide) (.cons hm (hlead.add (graph_digits hp _)))
      split
      · exact hdigits _ (fun _ => isHexDigit_graph) (isGraph_of_or ‹_› (by decide) (by decide))
      · split
        · exact hdigits _ (fun x hx => isGraph_of_or hx (by decide) (by decide))
            (isGraph_of_or ‹_› (by decide) (by decide))
        · split
          · exact hdigits _ (fun x hx => isGraph_of_range hx (by decide) (by decide))
              (isGraph_of_or ‹_› (by decide) (by decide))
          · exact .zero _
  · exact .zero _

theorem graph_exponent (bytes : Bytes) : Graph bytes (exponentLength bytes) := by
  unfold exponentLength
  dsimp only
  split
  · exact .zero _
  · rename_i hmark
    rcases oneOf_cases (fun b => b == 0x65 || b == 0x45) bytes with hnone | ⟨-, m, rest, rfl, hm⟩
    · exact absurd (beq_iff_eq.mpr hnone) hmark
    · split
      · exact .zero _
      · have hsign : Graph rest (oneOf (fun b => b == 0x2b || b == 0x2d) rest) :=
          graph_oneOf (fun x hx => isGraph_of_or hx (by decide) (by decide)) rest
        have hdigits := hsign.add (graph_looseDigits (fun _ => isDigit_graph) _)
        rw [Nat.add_assoc, Nat.add_comm 1]
        simp only [List.drop_succ_cons, List.drop_zero, Nat.add_comm 1]
        exact .cons (isGraph_of_or hm (by decide) (by decide)) hdigits

theorem graph_decimal (bytes : Bytes) : Graph bytes (decimalLength bytes) := by
  have hwhole : Graph bytes (looseDigits isDigit bytes) := graph_looseDigits (fun _ => isDigit_graph) bytes
  unfold decimalLength
  dsimp only
  generalize looseDigits isDigit bytes = whole at hwhole ⊢
  have hpoint : Graph (bytes.drop whole) (oneOf (· == 0x2e) (bytes.drop whole)) :=
    graph_oneOf (fun x hx => by rw [beq_iff_eq.mp hx]; decide) _
  -- the fraction, if there is a point before it
  have hplaces : Graph ((bytes.drop whole).drop (oneOf (· == 0x2e) (bytes.drop whole)))
      (if oneOf (· == 0x2e) (bytes.drop whole) == 0 then 0 else looseDigits isDigit ((bytes.drop whole).drop 1)) := by
    split
    · exact .zero _
    · rename_i hone
      rcases oneOf_cases (· == 0x2e) (bytes.drop whole) with hnone | ⟨hsize, -⟩
      · exact absurd (beq_iff_eq.mpr hnone) hone
      · rw [hsize]
        exact graph_looseDigits (fun _ => isDigit_graph) _
  have hmantissa := hwhole.add (hpoint.add hplaces)
  rw [← Nat.add_assoc] at hmantissa
  generalize (if oneOf (· == 0x2e) (bytes.drop whole) == 0 then 0
    else looseDigits isDigit ((bytes.drop whole).drop 1)) = places at hmantissa ⊢
  split
  · exact .zero _
  · exact hmantissa.add (graph_exponent _)

/-- **A number has no white space in it.** -/
theorem graph_number (bytes : Bytes) : Graph bytes (numberLength bytes) := by
  unfold numberLength
  dsimp only
  have hdigits : Graph bytes (if basedLength bytes == 0 then decimalLength bytes else basedLength bytes) := by
    split
    · exact graph_decimal bytes
    · exact graph_based bytes
  generalize (if basedLength bytes == 0 then decimalLength bytes else basedLength bytes) = n at hdigits ⊢
  split
  · exact .zero _
  · refine hdigits.add (graph_oneOf (fun x hx => ?_) _)
    simp only [Bool.or_eq_true, beq_iff_eq] at hx
    rcases hx with ((rfl | rfl) | rfl) | rfl <;> decide

/-! ### String literals -/

theorem isGraph_of_isFlag (h : isFlag x = true) : isGraph x = true := by
  simp only [isFlag, List.contains_eq_mem, List.mem_cons, List.not_mem_nil, or_false, decide_eq_true_eq] at h
  rcases h with rfl | rfl | rfl | rfl | rfl | rfl | rfl | rfl <;> decide

theorem isGraph_of_isQuote (h : isQuote x = true) : isGraph x = true := by
  simp only [isQuote, Bool.or_eq_true, beq_iff_eq] at h
  rcases h with (rfl | rfl) | rfl <;> decide

/-- **The opening of a string literal** consists of visible bytes, and it ends with a quote. -/
theorem openAt?_spec (h : Quote.openAt? bytes = some (q, n)) :
    Graph bytes n ∧ n ≠ 0 ∧ isQuote q.mark = true := by
  have hflags : Graph bytes (bytes.takeWhile isFlag).length := by
    refine ⟨(List.takeWhile_sublist _).length_le, fun x hx => ?_⟩
    rw [← List.prefix_iff_eq_take.mp (List.takeWhile_prefix _)] at hx
    exact isGraph_of_isFlag (List.all_eq_true.mp List.all_takeWhile x hx)
  unfold Quote.openAt? at h
  dsimp only at h
  split at h
  · cases h
  · rename_i mark rest hdrop
    split at h
    · cases h
    · rename_i hquote
      rw [Bool.not_eq_true', Bool.not_eq_false] at hquote
      have hgraph := isGraph_of_isQuote hquote
      obtain ⟨rfl, rfl⟩ := Prod.mk.inj (Option.some.inj h)
      refine ⟨hflags.add ?_, by split <;> omega, hquote⟩
      rw [hdrop]
      split
      · -- three quotes
        rename_i htriple
        rw [Bool.and_eq_true, beq_iff_eq] at htriple
        have hrest := List.take_append_drop 2 rest
        rw [htriple.2] at hrest
        rw [← hrest]
        exact .cons hgraph (.cons hgraph (.cons hgraph (.zero _)))
      · exact .cons hgraph (.zero _)

theorem closeLength_pos (q : Quote) : 0 < q.closeLength := by
  unfold Quote.closeLength
  split <;> decide

/-- The closing of a string literal consists of its quotes. -/
theorem closesAt_getElem? {i : Nat} (h : q.closesAt bytes = true) (hi : i < q.closeLength) :
    bytes[i]? = some q.mark := by
  have htake := take_of_startsWith h
  rw [List.length_replicate] at htake
  have hmark : (bytes.take q.closeLength)[i]? = some q.mark := by
    rw [htake, List.getElem?_replicate, if_pos hi]
  rwa [List.getElem?_take, if_pos hi] at hmark

/-- The text of a string literal goes up to a brace or a quote. -/
theorem measure?_next {skip : Nat} {fresh : Bool} (h : q.measure? skip fresh bytes = some n) :
    ∃ x, bytes[n]? = some x ∧ (x = 0x7b ∨ x = 0x7d ∨ x = q.mark) := by
  -- the cases that read on find the end in the rest, one byte further along
  have hmore {skip : Nat} {fresh : Bool} {a : UInt8} {rest : Bytes} {n : Nat}
      (ih : ∀ {n}, q.measure? skip fresh rest = some n → ∃ x, rest[n]? = some x ∧ (x = 0x7b ∨ x = 0x7d ∨ x = q.mark))
      (h : (q.measure? skip fresh rest).map (· + 1) = some n) :
      ∃ x, (a :: rest)[n]? = some x ∧ (x = 0x7b ∨ x = 0x7d ∨ x = q.mark) := by
    obtain ⟨k, hk, rfl⟩ := Option.map_eq_some_iff.mp h
    exact ih hk
  fun_induction Quote.measure? q skip fresh bytes generalizing n with
  | case1 => cases h
  | case2 skip fresh a rest ih => exact hmore ih h
  | case3 fresh a rest hbrace htwice ih => exact hmore ih h
  -- a brace ends the text, and so does the quote that closes it
  | case4 fresh a rest hbrace htwice =>
    cases h
    rw [Bool.and_eq_true, Bool.or_eq_true, beq_iff_eq, beq_iff_eq] at hbrace
    exact ⟨a, rfl, hbrace.2.elim .inl fun h => .inr (.inl h)⟩
  | case5 fresh a rest hbrace hback hraw ih => exact hmore ih h
  | case6 fresh a rest hbrace hback hraw ih => exact hmore ih h
  | case7 fresh a rest hbrace hback hcloses =>
    cases h
    exact ⟨q.mark, closesAt_getElem? hcloses (closeLength_pos q), .inr (.inr rfl)⟩
  | case8 => cases h
  | case9 => cases h
  | case10 fresh a rest _ _ _ _ _ ih => exact hmore ih h

/-! ### Forms -/

/-- The texts of a form are visible. -/
def Form.inked : Form → Bool
  | .symbol accepted _ => accepted.all fun t =>
    t.utf8ByteSize == (Text.encode t).length && (Text.encode t).all isGraph
  | _ => true

/-- All literals that are open are so by a quote. -/
def Quoted (s : State) : Prop := ∀ q ∈ s.quotes, isQuote q.mark = true

/-- What a form finds: a name, something that begins and ends with visible bytes, or a piece of a string literal
    before a byte of ASCII. -/
inductive Found (kind : String) (bytes : Bytes) (size : Nat) : Prop where
  | name (h : size = nameLength bytes)
  | framed (h : Framed bytes size)
  | piece (hkind : kind = "string_content" ∨ kind = "format_text") (hnext : ∀ x, bytes[size]? = some x → x < 0x80)

/-- **What a form finds** is a name, or known by its ends. -/
theorem scan_found {form : Form} {s : State} {kind : String} {named : Bool} {size : Nat} (hs : Quoted s)
    (h : form.scan s bytes = some (kind, named, size)) (hinked : form.inked = true) (hsize : size ≠ 0) :
    Found kind bytes size := by
  cases form with
  | word text =>
    simp only [Form.scan] at h
    split at h
    · cases h
      exact .name rfl
    · cases h
  | name reserved =>
    simp only [Form.scan] at h
    split at h
    · cases h
      exact .name rfl
    · cases h
  | symbol accepted rivals =>
    simp only [Form.scan] at h
    split at h
    · rename_i ht
      split at h
      · rename_i hmem
        cases h
        have hvisible := List.all_eq_true.mp hinked kind (List.contains_iff_mem.mp hmem)
        exact .framed (framed_of_graph (graph_of_longestOf ht hvisible) hsize)
      · cases h
    · cases h
  | ellipsis =>
    simp only [Form.scan] at h
    split at h
    · rename_i hdots
      cases h
      exact .framed (framed_of_graph (graph_of_startsWith hdots rfl) hsize)
    · cases h
  | number =>
    cases h
    exact .framed (framed_of_graph (graph_number bytes) hsize)
  | stringStart =>
    simp only [Form.scan, Option.map_eq_some_iff] at h
    obtain ⟨⟨q, n⟩, hopen, hq⟩ := h
    cases hq
    exact .framed (framed_of_graph (openAt?_spec hopen).1 hsize)
  | stringContent =>
    simp only [Form.scan] at h
    split at h
    · rename_i q rest hquotes
      obtain ⟨n, hmeasure, hn⟩ := Option.map_eq_some_iff.mp h
      cases hn
      obtain ⟨x, hx, hdelimiter⟩ := measure?_next hmeasure
      refine .piece (.inl rfl) fun y hy => ?_
      obtain rfl : x = y := Option.some.inj (hx.symm.trans hy)
      rcases hdelimiter with rfl | rfl | rfl
      · decide
      · decide
      · exact Bytes.ascii_of_isGraph (isGraph_of_isQuote (hs q (by rw [hquotes]; exact List.mem_cons_self)))
    · cases h
  | stringEnd =>
    simp only [Form.scan] at h
    split at h
    · rename_i q rest hquotes
      split at h
      · rename_i hcloses
        cases h
        have hgraph := isGraph_of_isQuote (hs q (by rw [hquotes]; exact List.mem_cons_self))
        have hpos := closeLength_pos q
        exact .framed ⟨⟨_, closesAt_getElem? hcloses hpos, hgraph⟩,
          _, closesAt_getElem? hcloses (by omega), hgraph⟩
      · cases h
    · cases h
  | conversion =>
    simp only [Form.scan] at h
    split at h
    · rename_i a b rest
      split at h
      · rename_i hmark
        cases h
        rw [Bool.and_assoc, Bool.and_eq_true, beq_iff_eq] at hmark
        obtain ⟨rfl, hletter⟩ := hmark
        exact .framed ⟨⟨_, rfl, by decide⟩, b, rfl, isGraph_of_range hletter (by decide) (by decide)⟩
      · cases h
    · cases h
  | formatText =>
    cases h
    -- the run of other bytes stops at a brace or a line feed
    refine .piece (.inr rfl) fun x hx => ?_
    have hhead := List.head?_dropWhile_not (fun b => b != 0x7b && b != 0x7d && b != 0x0a) bytes
    rw [← drop_runLength, List.head?_drop, ← runLength, hx] at hhead
    simp only [Bool.and_eq_false_iff, bne_eq_false_iff_eq] at hhead
    rcases hhead with (rfl | rfl) | rfl <;> decide
  | _ => cases h

end Docsmith.Python
