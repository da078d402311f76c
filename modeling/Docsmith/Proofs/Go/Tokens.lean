import Docsmith.Go.Lexis
import Docsmith.Proofs.Grammar.Run

namespace Docsmith.Go

open Grammar

/-!
# How tokens of Go end

A token begins and ends with bytes that are no white space, but for the line feed that ends a statement.
Names and numbers have no white space at all; the other literals stand between quotes.

* `isNumeral`: the bytes of numbers, and `graph_number`: a number consists of visible bytes.
* `runeLength_framed`, `stringLength_framed`, `rawLength_framed`: the other literals end with visible bytes.
* `Found`, `Form.scan_found`: what a form finds, and `Found.ends`: how this begins and ends.
* `Ended`: the last of some bytes is no white space, or a line feed.
* `commentLength_cases`: a comment goes up to the end of the line, or ends with a slash.
-/

variable {bytes rest : Bytes} {a b n : Nat} {x : UInt8}

/-! ### Numbers -/

/-- The byte may be part of a number. -/
def isNumeral (x : UInt8) : Bool :=
  isHexDigit x || [0x2b, 0x2d, 0x2e, 0x5f, 0x58, 0x78, 0x4f, 0x6f, 0x50, 0x70, 0x69].contains x

/-- The first bytes may be part of a number. -/
abbrev Numeral (bytes : Bytes) (n : Nat) : Prop := Run (fun x => isNumeral x = true) bytes n

theorem isDigit_numeral (h : isDigit x = true) : isNumeral x = true := by
  simp [isNumeral, isHexDigit, h]

theorem isHexDigit_numeral (h : isHexDigit x = true) : isNumeral x = true := by
  simp [isNumeral, h]

/-- What may be part of a number is visible. -/
theorem isGraph_of_isNumeral (h : isNumeral x = true) : isGraph x = true := by
  rw [isNumeral, Bool.or_eq_true] at h
  rcases h with h | h
  · exact isHexDigit_graph h
  · simp only [List.contains_cons, List.contains_nil, Bool.or_false, Bool.or_eq_true, beq_iff_eq] at h
    rcases h with rfl | rfl | rfl | rfl | rfl | rfl | rfl | rfl | rfl | rfl | rfl <;> decide

section Digits

variable {digit : UInt8 → Bool} (hdigit : ∀ x, digit x = true → isNumeral x = true)

include hdigit

theorem numeral_digits (bytes : Bytes) : Numeral bytes (digitsLength digit bytes) :=
  run_digits hdigit (by decide) bytes

theorem numeral_prefixedDigits (bytes : Bytes) : Numeral bytes (prefixedDigits digit bytes) := by
  unfold prefixedDigits
  split
  · split
    · rename_i hmark
      rw [beq_iff_eq] at hmark
      dsimp only
      split
      · exact .zero _
      · rw [hmark]
        exact .cons (by decide) (numeral_digits hdigit _)
    · exact numeral_digits hdigit _
  · exact .zero _

end Digits

theorem numeral_exponent {marker : UInt8 → Bool} (hmarker : ∀ x, marker x = true → isNumeral x = true)
    (bytes : Bytes) : Numeral bytes (exponentLength marker bytes) := by
  cases bytes with
  | nil => exact .zero _
  | cons m rest =>
    -- the marker, a sign or none, and the digits
    obtain ⟨sign, hsign, hlength⟩ : ∃ sign, Numeral rest sign ∧
        exponentLength marker (m :: rest) = if marker m then
          if digitsLength isDigit (rest.drop sign) == 0 then 0
          else digitsLength isDigit (rest.drop sign) + sign + 1
        else 0 := by
      cases rest with
      | nil => exact ⟨0, .zero _, rfl⟩
      | cons s more =>
        refine ⟨if s == 0x2b || s == 0x2d then 1 else 0, ?_, rfl⟩
        split
        · rename_i hs
          rw [Bool.or_eq_true, beq_iff_eq, beq_iff_eq] at hs
          refine .cons ?_ (.zero _)
          rcases hs with rfl | rfl <;> decide
        · exact .zero _
    rw [hlength]
    split
    · rename_i hm
      split
      · exact .zero _
      · rw [Nat.add_comm (digitsLength _ _)]
        exact .cons (hmarker m hm) (hsign.add (numeral_digits (fun _ => isDigit_numeral) _))
    · exact .zero _

theorem numeral_decimal (bytes : Bytes) : Numeral bytes (decimalLength bytes) := by
  have hwhole : Numeral bytes (digitsLength isDigit bytes) := numeral_digits (fun _ => isDigit_numeral) _
  -- what may stand behind the digits: nothing, or a point with digits of its own
  obtain ⟨fraction, hfraction, hlength⟩ : ∃ fraction,
      Numeral (bytes.drop (digitsLength isDigit bytes)) fraction ∧
      decimalLength bytes = if digitsLength isDigit bytes + fraction == 0 then 0
        else digitsLength isDigit bytes + fraction
          + exponentLength isDecimalMark ((bytes.drop (digitsLength isDigit bytes)).drop fraction) := by
    unfold decimalLength
    cases hdrop : bytes.drop (digitsLength isDigit bytes) with
    | nil => exact ⟨0, .zero _, by simp only [hdrop]⟩
    | cons b rest =>
      refine ⟨if b == 0x2e then
        if digitsLength isDigit bytes == 0 && digitsLength isDigit rest == 0 then 0
        else digitsLength isDigit rest + 1 else 0, ?_, by simp only [hdrop]⟩
      split
      · rename_i hb
        rw [beq_iff_eq] at hb
        -- a point alone, with no digit on either side, is no number
        split
        · exact .zero _
        · rw [hb]
          exact .cons (by decide) (numeral_digits (fun _ => isDigit_numeral) _)
      · exact .zero _
  rw [hlength]
  split
  · exact .zero _
  -- the exponent follows the fraction, and its mark is a numeral byte too
  · refine (hwhole.add hfraction).add ?_
    rw [← List.drop_drop]
    refine numeral_exponent (fun x hx => ?_) _
    rw [isDecimalMark, Bool.or_eq_true, beq_iff_eq, beq_iff_eq] at hx
    rcases hx with rfl | rfl <;> decide

/-- The digits of a hexadecimal literal with its fraction and exponent. -/
theorem numeral_hexadecimal {z m : UInt8} (hz : z = 0x30) (hm : (m == 0x78 || m == 0x58) = true)
    (rest : Bytes) : Numeral (z :: m :: rest) (basedLength (z :: m :: rest)) := by
  have hwhole : Numeral rest (prefixedDigits isHexDigit rest) :=
    numeral_prefixedDigits (fun _ => isHexDigit_numeral) _
  -- behind the digits a point may stand, whose own digits belong to the fraction
  obtain ⟨fraction, hfraction, hlength⟩ : ∃ fraction,
      Numeral (rest.drop (prefixedDigits isHexDigit rest)) fraction ∧
      basedLength (z :: m :: rest) =
        let whole := prefixedDigits isHexDigit rest
        let power := exponentLength isBinaryMark ((rest.drop whole).drop fraction)
        if power != 0 && (0 < whole || 1 < fraction) then whole + fraction + power + 2
        else if whole == 0 then 0 else whole + 2 := by
    unfold basedLength
    cases hdrop : rest.drop (prefixedDigits isHexDigit rest) with
    | nil => exact ⟨0, .zero _, by simp only [hdrop, hz, hm]; rfl⟩
    | cons b more =>
      refine ⟨if b == 0x2e then digitsLength isHexDigit more + 1 else 0, ?_, by simp only [hdrop, hz, hm]; rfl⟩
      split
      · rename_i hb
        rw [beq_iff_eq] at hb
        rw [hb]
        exact .cons (by decide) (numeral_digits (fun _ => isHexDigit_numeral) _)
      · exact .zero _
  -- the zero and the letter before the digits count as part of the number
  have hprefix {n : Nat} (h : Numeral rest n) : Numeral (z :: m :: rest) (n + 2) := by
    rw [Bool.or_eq_true, beq_iff_eq, beq_iff_eq] at hm
    refine .cons (by rw [hz]; decide) (.cons ?_ h)
    rcases hm with rfl | rfl <;> decide
  rw [hlength]
  dsimp only
  split
  -- a hexadecimal fraction needs an exponent; without one only the digits before the point count
  · refine hprefix ((hwhole.add hfraction).add ?_)
    rw [← List.drop_drop]
    refine numeral_exponent (fun x hx => ?_) _
    rw [isBinaryMark, Bool.or_eq_true, beq_iff_eq, beq_iff_eq] at hx
    rcases hx with rfl | rfl <;> decide
  · split
    · exact .zero _
    · exact hprefix hwhole

/-- The digits of a binary or octal literal. -/
theorem numeral_based (bytes : Bytes) : Numeral bytes (basedLength bytes) := by
  cases bytes with
  | nil => exact .zero _
  | cons z rest =>
    cases rest with
    | nil => exact .zero _
    | cons m rest =>
      -- the first two bytes tell the bases apart: hexadecimal, binary, octal, or no base at all
      by_cases hz : z = 0x30
      · by_cases hm : (m == 0x78 || m == 0x58) = true
        · exact numeral_hexadecimal hz hm rest
        -- binary and octal are read alike, and differ only in the digits they allow
        · have hprefix (digit : UInt8 → Bool) (hdigit : ∀ x, digit x = true → isNumeral x = true)
              (hm : isNumeral m = true) : Numeral (z :: m :: rest)
                (if prefixedDigits digit rest == 0 then 0 else prefixedDigits digit rest + 2) := by
            split
            · exact .zero _
            · exact .cons (by rw [hz]; decide) (.cons hm (numeral_prefixedDigits hdigit rest))
          unfold basedLength
          simp only [hz, hm, bne_self_eq_false, Bool.false_eq_true, if_false] at hprefix ⊢
          split
          · rename_i hb
            refine hprefix _ (fun x hx => ?_) ?_
            · rw [Bool.or_eq_true, beq_iff_eq, beq_iff_eq] at hx
              rcases hx with rfl | rfl <;> decide
            · rw [Bool.or_eq_true, beq_iff_eq, beq_iff_eq] at hb
              rcases hb with rfl | rfl <;> decide
          · split
            · rename_i ho
              refine hprefix _ (fun x hx => ?_) ?_
              · rw [Bool.and_eq_true, decide_eq_true_eq] at hx
                rw [decide_eq_true_eq] at hx
                refine isDigit_numeral ?_
                simp only [isDigit, Bool.and_eq_true, decide_eq_true_eq]
                exact ⟨hx.1, UInt8.le_trans hx.2 (by decide)⟩
              · rw [Bool.or_eq_true, beq_iff_eq, beq_iff_eq] at ho
                rcases ho with rfl | rfl <;> decide
            · exact .zero _
      · have hnone : basedLength (z :: m :: rest) = 0 := by simp [basedLength, hz]
        rw [hnone]
        exact .zero _

/-- **What is read as a number may be part of one.** -/
theorem numeral_number (bytes : Bytes) : Numeral bytes (numberLength bytes) := by
  unfold numberLength
  dsimp only
  -- the based number is tried first, and a decimal one where there is none
  have hdigits : Numeral bytes (if basedLength bytes == 0 then decimalLength bytes else basedLength bytes) := by
    split
    · exact numeral_decimal bytes
    · exact numeral_based bytes
  generalize (if basedLength bytes == 0 then decimalLength bytes else basedLength bytes) = n at hdigits ⊢
  split
  · exact .zero _
  -- an imaginary number has one letter more
  · split
    · rename_i b rest hdrop
      split
      · rename_i hb
        rw [beq_iff_eq] at hb
        refine hdigits.add ?_
        rw [hdrop, hb]
        exact .cons (by decide) (.zero _)
      · exact hdigits
    · exact hdigits

/-- A number has no white space in it. -/
theorem graph_number (bytes : Bytes) : Graph bytes (numberLength bytes) :=
  (numeral_number bytes).mono fun _ => isGraph_of_isNumeral

/-! ### The ends of tokens -/

/-- A rune literal stands between quotes. -/
theorem runeLength_framed (h : runeLength bytes ≠ 0) : Framed bytes (runeLength bytes) := by
  unfold runeLength at h ⊢
  -- a rune opens with its quote, is one character or an escape, and closes with the quote
  split at h
  · rename_i q a rest
    split at h
    · exact absurd rfl h
    · rename_i hq
      have hquote : q = 0x27 ∧ a ≠ 0x27 := by simpa using hq
      rw [if_neg hq]
      dsimp only at h ⊢
      generalize (if a == 0x5c then _ else _) = inner at h ⊢
      split at h
      · rename_i c more hdrop
        split at h
        · rename_i hc
          rw [beq_iff_eq] at hc
          -- the closing quote is the last byte of the frame
          have hlast : (a :: rest)[inner]? = some c := by
            rw [← List.head?_drop, hdrop]
            rfl
          simp only [hc, beq_self_eq_true, if_true]
          exact ⟨⟨q, rfl, by rw [hquote.1]; decide⟩, c, hlast, by rw [hc]; decide⟩
        · exact absurd rfl h
      · exact absurd rfl h
  · exact absurd rfl h

/-- The last of some bytes is the last of those after the first. -/
theorem getElem?_last_cons {k : Nat} (hk : k ≠ 0) (x : UInt8) (rest : Bytes) :
    (x :: rest)[k + 1 - 1]? = rest[k - 1]? := by
  obtain ⟨m, rfl⟩ := Nat.exists_eq_succ_of_ne_zero hk
  rfl

/-- What is left of a string ends with its quote. -/
theorem stringRest_last {skip : Nat} (h : stringRestLength? skip bytes = some n) :
    n ≠ 0 ∧ bytes[n - 1]? = some 0x22 := by
  -- the recursion ends at the quote that closes the string; before it every case only adds bytes
  fun_induction stringRestLength? skip bytes generalizing n with
  | case1 => cases h
  | case2 skip x rest ih =>
    obtain ⟨k, hk, rfl⟩ := Option.map_eq_some_iff.mp h
    exact ⟨by omega, (getElem?_last_cons (ih hk).1 x rest).trans (ih hk).2⟩
  | case3 x rest hx =>
    cases h
    exact ⟨by decide, by rw [beq_iff_eq.mp hx]; rfl⟩
  | case4 => cases h
  | case5 => cases h
  | case6 x rest =>
    rename_i ih
    obtain ⟨k, hk, rfl⟩ := Option.map_eq_some_iff.mp h
    exact ⟨by omega, (getElem?_last_cons (ih hk).1 x rest).trans (ih hk).2⟩
  | case7 x rest _ _ _ ih =>
    obtain ⟨k, hk, rfl⟩ := Option.map_eq_some_iff.mp h
    exact ⟨by omega, (getElem?_last_cons (ih hk).1 x rest).trans (ih hk).2⟩

/-- A string stands between quotes. -/
theorem stringLength_framed (h : stringLength bytes ≠ 0) : Framed bytes (stringLength bytes) := by
  unfold stringLength at h ⊢
  cases bytes with
  | nil => exact absurd rfl h
  | cons a rest =>
    dsimp only at h ⊢
    split at h
    · rename_i ha
      rw [if_pos ha]
      cases hrest : stringRestLength? 0 rest with
      | none => rw [hrest] at h; exact absurd rfl h
      | some n =>
        obtain ⟨hpos, hlast⟩ := stringRest_last hrest
        exact ⟨⟨a, rfl, by rw [beq_iff_eq.mp ha]; decide⟩, 0x22,
          (getElem?_last_cons hpos a rest).trans hlast, by decide⟩
    · exact absurd rfl h

/-- A raw string stands between quotes. -/
theorem rawLength_framed (h : rawLength bytes ≠ 0) : Framed bytes (rawLength bytes) := by
  unfold rawLength at h ⊢
  cases bytes with
  | nil => exact absurd rfl h
  | cons a rest =>
    dsimp only at h ⊢
    split at h
    · rename_i ha
      rw [if_pos ha]
      split at h
      · rename_i hlt
        rw [if_pos hlt]
        -- the run of other bytes stops at a quote
        have hdrop : rest.drop (runLength (· != 0x60) rest) = rest.dropWhile (· != 0x60) :=
          drop_runLength _ rest
        have hhead := List.head?_dropWhile_not (· != 0x60) rest
        rw [← hdrop, List.head?_drop] at hhead
        rw [List.getElem?_eq_getElem hlt] at hhead
        have hquote : rest[runLength (· != 0x60) rest] = 0x60 := by simpa using hhead
        refine ⟨⟨a, rfl, by rw [beq_iff_eq.mp ha]; decide⟩, 0x60, ?_, by decide⟩
        show rest[runLength (· != 0x60) rest]? = some 0x60
        rw [List.getElem?_eq_getElem hlt, hquote]
      · exact absurd rfl h
    · exact absurd rfl h

/-- The kinds of nodes that a form may find, and whether they are named. -/
def Form.sorts : Form → List (String × Bool)
  | .word text => [(text, false)]
  | .name kind _ => [(kind, true)]
  | .symbol accepted _ => accepted.map (·, false)
  | .number => [("number_literal", true)]
  | .rune => [("rune_literal", true)]
  | .string => [("interpreted_string_literal", true)]
  | .raw => [("raw_string_literal", true)]
  | .terminator => [("\n", false), (";", false), ("\x00", false)]
  | .sameLine => []
  | .finish => []

/-- A form finds a node of one of its sorts. -/
theorem Form.scan_sorts {form : Form} {kind : String} {named : Bool} {size : Nat}
    (h : form.scan bytes = some (kind, named, size)) : (kind, named) ∈ form.sorts := by
  -- each form lists the sorts it can give, so the cases only have to see that it gives no other
  cases form with
  | word text =>
    simp only [Form.scan] at h
    split at h
    · cases h; simp [Form.sorts]
    · cases h
  | name kind reserved =>
    simp only [Form.scan] at h
    split at h
    · cases h; simp [Form.sorts]
    · cases h
  | symbol accepted rivals =>
    simp only [Form.scan] at h
    split at h
    · split at h
      · rename_i hmem
        cases h
        simpa [Form.sorts] using hmem
      · cases h
    · cases h
  | terminator =>
    simp only [Form.scan] at h
    split at h
    · split at h
      · cases h; simp [Form.sorts]
      · split at h
        · cases h; simp [Form.sorts]
        · split at h
          · cases h; simp [Form.sorts]
          · cases h
    · cases h
  | sameLine => cases h
  | finish => cases h
  | _ => cases h; simp [Form.sorts]

/-- The texts of a form are visible. -/
def Form.inked : Form → Bool
  | .symbol accepted _ => accepted.all fun t =>
    t.utf8ByteSize == (Text.encode t).length && (Text.encode t).all isGraph
  | _ => true

/-- What a form finds: a name, something that begins and ends with visible bytes, or a byte that ends a
    statement. -/
inductive Found (bytes : Bytes) (size : Nat) : Prop where
  | name (h : size = nameLength bytes)
  | framed (h : Framed bytes size)
  | stop (hsize : size = 1) (x : UInt8) (hx : bytes[0]? = some x) (hstop : x = Bytes.newline ∨ x = 0)

/-- **What a form finds** is a name, or known by its ends. -/
theorem Form.scan_found {form : Form} {kind : String} {named : Bool} {size : Nat}
    (h : form.scan bytes = some (kind, named, size)) (hinked : form.inked = true) (hsize : size ≠ 0) :
    Found bytes size := by
  -- four forms are measured by lemmas of their own; the words begin and end with a letter
  cases form with
  | word text =>
    simp only [Form.scan] at h
    split at h
    · cases h
      exact .name rfl
    · cases h
  | name kind reserved =>
    simp only [Form.scan] at h
    split at h
    · cases h
      exact .name rfl
    · cases h
  | symbol accepted rivals =>
    simp only [Form.scan] at h
    split at h
    · rename_i ht
      -- a symbol is spelled in visible characters, which `inked` asks of every symbol the form accepts
      split at h
      · rename_i hmem
        cases h
        have hvisible := List.all_eq_true.mp hinked kind (List.contains_iff_mem.mp hmem)
        exact .framed (framed_of_graph (graph_of_longestOf ht hvisible) hsize)
      · cases h
    · cases h
  | number =>
    cases h
    exact .framed (framed_of_graph (graph_number bytes) hsize)
  | rune =>
    cases h
    exact .framed (runeLength_framed hsize)
  | string =>
    cases h
    exact .framed (stringLength_framed hsize)
  | raw =>
    cases h
    exact .framed (rawLength_framed hsize)
  | terminator =>
    simp only [Form.scan] at h
    split at h
    -- a line feed and the end of the file are the two tokens without ink; the semicolon has some
    · split at h
      · rename_i hb
        cases h
        exact .stop rfl _ rfl (.inl (beq_iff_eq.mp hb))
      · split at h
        · rename_i hb
          cases h
          rw [beq_iff_eq] at hb
          exact .framed ⟨⟨_, rfl, by rw [hb]; decide⟩, _, rfl, by rw [hb]; decide⟩
        · split at h
          · rename_i hb
            cases h
            exact .stop rfl _ rfl (.inr (beq_iff_eq.mp hb))
          · cases h
    · cases h
  | sameLine => cases h
  | finish => cases h

/-- What is found is a line feed, or it begins and ends with bytes that are no white space. -/
theorem Found.ends (h : Found bytes n) (hn : n ≠ 0) : n = 1 ∧ bytes[0]? = some Bytes.newline ∨
    (∃ x, bytes[0]? = some x ∧ Bytes.isBlank x = false) ∧
      ∃ x, bytes[n - 1]? = some x ∧ Bytes.isBlank x = false := by
  cases h with
  | name h =>
    rw [h] at hn ⊢
    exact .inr ((inked_name bytes).ends hn)
  | framed h =>
    obtain ⟨x, hx, hgraph⟩ := h.first
    obtain ⟨y, hy, hgraph'⟩ := h.last
    exact .inr ⟨⟨x, hx, isBlank_of_isGraph hgraph⟩, y, hy, isBlank_of_isGraph hgraph'⟩
  | stop hsize x hx hstop =>
    subst hsize
    rcases hstop with rfl | rfl
    · exact .inl ⟨rfl, hx⟩
    · exact .inr ⟨⟨0, hx, by decide⟩, 0, hx, by decide⟩

/-- The last of the first bytes is no white space, or it is a line feed. -/
def Ended (bytes : Bytes) (n : Nat) : Prop :=
  ∃ x, bytes[n - 1]? = some x ∧ (Bytes.isBlank x = false ∨ x = Bytes.newline)

/-- What a form finds ends with a byte that is no white space, or with the line feed that ends a
    statement. -/
theorem Found.ended (h : Found bytes n) (hn : n ≠ 0) : Ended bytes n := by
  rcases h.ends hn with ⟨rfl, hfeed⟩ | ⟨-, x, hx, hink⟩
  · exact ⟨_, hfeed, .inr rfl⟩
  · exact ⟨x, hx, .inl hink⟩

/-! ### Comments -/

/-- A block comment ends with a slash. -/
theorem blockLength_last (h : blockLength? bytes = some n) : n ≠ 0 ∧ bytes[n - 1]? = some 0x2f := by
  fun_induction blockLength? bytes generalizing n with
  | case1 => cases h
  | case2 a b rest ha hb =>
    cases h
    exact ⟨by decide, by rw [beq_iff_eq.mp hb]; rfl⟩
  | case3 a b rest ha hb ih =>
    obtain ⟨k, hk, rfl⟩ := Option.map_eq_some_iff.mp h
    exact ⟨by omega, (getElem?_last_cons (ih hk).1 a _).trans (ih hk).2⟩
  | case4 a rest hother ih =>
    obtain ⟨k, hk, rfl⟩ := Option.map_eq_some_iff.mp h
    exact ⟨by omega, (getElem?_last_cons (ih hk).1 a rest).trans (ih hk).2⟩

/-- A comment begins with a slash, and it goes up to the end of the line or ends with a slash. -/
theorem commentLength_cases (h : commentLength bytes ≠ 0) :
    commentLength bytes ≤ bytes.length ∧ bytes[0]? = some 0x2f ∧
      (Bytes.newline ∉ bytes.take (commentLength bytes) ∧
          (∀ x, bytes[commentLength bytes]? = some x → x = 0 ∨ x = Bytes.newline) ∨
        bytes[commentLength bytes - 1]? = some 0x2f) := by
  unfold commentLength at h ⊢
  -- a comment of one line ends before its line feed, a block ends with its own slash
  split at h
  · rename_i a b rest
    split at h
    · rename_i hline
      rw [if_pos hline]
      rw [Bool.and_eq_true, beq_iff_eq] at hline
      refine ⟨?_, by rw [hline.1]; rfl, .inl ⟨fun hmem => ?_, fun x hx => ?_⟩⟩
      · exact (List.takeWhile_sublist _).length_le
      · have htake : (a :: b :: rest).take (lineLength (a :: b :: rest))
            = (a :: b :: rest).takeWhile fun b => b != Bytes.newline && b != 0 :=
          (List.prefix_iff_eq_take.mp (List.takeWhile_prefix _)).symm
        rw [htake] at hmem
        have hnot := List.all_eq_true.mp (List.all_takeWhile (p := fun b => b != Bytes.newline && b != 0)
          (l := a :: b :: rest)) _ hmem
        simp at hnot
      -- what follows the comment is where the run stopped: a line feed, a zero byte, or nothing
      · rw [← List.head?_drop] at hx
        rcases drop_lineLength (a :: b :: rest) with hnil | ⟨c, more, hdrop, hc⟩
        · rw [hnil] at hx
          cases hx
        · rw [hdrop] at hx
          cases hx
          exact hc
    · rename_i hline
      rw [if_neg hline]
      split at h
      · rename_i hblock
        rw [if_pos hblock]
        rw [Bool.and_eq_true, beq_iff_eq] at hblock
        cases hlength : blockLength? rest with
        | none => rw [hlength] at h; exact absurd rfl h
        | some n =>
          obtain ⟨hpos, hlast⟩ := blockLength_last hlength
          have hn := (List.getElem?_eq_some_iff.mp hlast).1
          refine ⟨by simp only [List.length_cons]; omega, by rw [hblock.1]; rfl, .inr ?_⟩
          -- the last slash is found in the text behind the two bytes that open the block
          exact (getElem?_last_cons (by omega) a _).trans
            ((getElem?_last_cons hpos b rest).trans hlast)
      · exact absurd rfl h
  · exact absurd rfl h

end Docsmith.Go
