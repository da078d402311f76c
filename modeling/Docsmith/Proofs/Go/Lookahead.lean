import Docsmith.Proofs.Go.Pieces

namespace Docsmith.Go

open Grammar

/-!
# How far tokens look ahead

Whether a token stands at the head of some bytes depends on no more of them than those up to a line feed, a zero byte,
a semicolon or an opening parenthesis; a literal in quotes and a comment do not even look beyond their ends.  So a
token is the same before all continuations of the source behind such a byte.

* `Forked`: bytes agree up to a byte of some sort.
* `name_forked`, `number_forked`, `startsWith_forked`: names, numbers and symbols are the same before forked bytes.
* `string_of_take`, `raw_of_take`, `rune_of_take`, `comment_of_take`: so are literals and comments before bytes that
  agree with them.
* `Alike`: bytes that a token cannot tell apart, and `Form.scan_alike`: no form can.
-/

variable {A B bytes rest rest' : Bytes} {P : UInt8 → Prop} {n i : Nat} {a b c : UInt8}

/-- The bytes agree up to a byte of some sort, and this byte. -/
inductive Forked (P : UInt8 → Prop) : Bytes → Bytes → Prop where
  | stop {b : UInt8} (hb : P b) (rest rest' : Bytes) : Forked P (b :: rest) (b :: rest')
  | cons {b : UInt8} {rest rest' : Bytes} (h : Forked P rest rest') : Forked P (b :: rest) (b :: rest')

namespace Forked

/-- Bytes that agree beyond a byte of the sort are forked. -/
theorem of_take (htake : A.take n = B.take n) (hin : i < n) (hb : A[i]? = some b) (hP : P b) : Forked P A B := by
  -- induction on the place of the byte: before it the two texts agree byte by byte
  induction i generalizing A B n with
  | zero =>
    obtain ⟨n, rfl⟩ := Nat.exists_eq_succ_of_ne_zero (Nat.ne_of_gt hin)
    cases A with
    | nil => cases hb
    | cons a A =>
      cases B with
      | nil => simp at htake
      | cons a' B =>
        rw [List.take_succ_cons, List.take_succ_cons, List.cons.injEq] at htake
        obtain ⟨rfl, -⟩ := htake
        cases hb
        exact .stop hP A B
  | succ i ih =>
    obtain ⟨n, rfl⟩ := Nat.exists_eq_succ_of_ne_zero (Nat.ne_of_gt (Nat.zero_lt_of_lt hin))
    cases A with
    | nil => cases hb
    | cons a A =>
      cases B with
      | nil => simp at htake
      | cons a' B =>
        rw [List.take_succ_cons, List.take_succ_cons, List.cons.injEq] at htake
        obtain ⟨rfl, htake⟩ := htake
        exact .cons (ih htake (Nat.lt_of_succ_lt_succ hin) hb)

theorem head?_eq (h : Forked P A B) : A.head? = B.head? := by cases h <;> rfl

/-- Behind bytes that are none of the sort, the bytes are still forked. -/
theorem drop (h : Forked P A B) (hn : Grammar.Run (fun b => ¬ P b) A n) : Forked P (A.drop n) (B.drop n) := by
  induction n generalizing A B with
  | zero => exact h
  | succ n ih =>
    cases h with
    | stop hb rest rest' => exact absurd hb hn.tail.1
    | cons h => exact ih h hn.tail.2

/-- Bytes that are none of the sort are the same. -/
theorem take_eq (h : Forked P A B) (hn : Grammar.Run (fun b => ¬ P b) A n) : A.take n = B.take n := by
  induction n generalizing A B with
  | zero => rfl
  | succ n ih =>
    cases h with
    | stop hb rest rest' => exact absurd hb hn.tail.1
    | cons h => rw [List.take_succ_cons, List.take_succ_cons, ih h hn.tail.2]

end Forked

/-! ### Names -/

/-- A character is the same before bytes that are forked at a byte of ASCII. -/
theorem read_forked (hP : ∀ b, P b → b < 0x80) (h : Forked P A B) (a : UInt8) :
    Text.Rune.read a A = Text.Rune.read a B := by
  have hstop {b : UInt8} (hb : P b) : Text.isContinuation b = false := by
    have hlt := hP b hb
    rw [UInt8.lt_iff_toNat_lt] at hlt
    simp only [Text.isContinuation, Bool.and_eq_false_iff, decide_eq_false_iff_not, UInt8.le_iff_toNat_le]
    exact .inl (Nat.not_le.mpr hlt)
  -- a byte of ASCII ends the character wherever it stands
  cases h with
  | stop hb =>
    have hb := hstop hb
    simp [Text.Rune.read, Text.validSecondOfThree, Text.validSecondOfFour, hb]
  | cons h =>
    cases h with
    | stop hc =>
      have hc := hstop hc
      simp [Text.Rune.read, hc]
    | cons h =>
      cases h with
      | stop hd =>
        have hd := hstop hd
        simp [Text.Rune.read, hd]
      | cons h => rfl

/-- What goes on a name is the same before bytes that are forked at a byte of ASCII that is no part of names. -/
theorem nameRest_forked (hP : ∀ b, P b → isNameByte b = false) (h : Forked P A B) {skip : Nat} (hskip : Named A skip) :
    nameRestLength skip A = nameRestLength skip B := by
  have hascii : ∀ b, P b → b < 0x80 := fun b hb => by
    have hname := hP b hb
    simp only [isNameByte, Bool.or_eq_false_iff, decide_eq_false_iff_not] at hname
    exact UInt8.not_le.mp hname.1
  -- the induction follows the two texts up to the byte where they part
  induction h generalizing skip with
  | @stop b hb rest rest' =>
    cases skip with
    -- the next rune would begin at the stop, which is no byte of a name
    | zero =>
      have hname := hP b hb
      simp only [isNameByte, Bool.or_eq_false_iff] at hname
      have hread : ∀ rest, Text.Rune.read b rest = .char b.toNat 1 := fun rest => if_pos (hascii b hb)
      simp [nameRestLength, hread, hname.2]
    -- a rune half read here would contain the stop
    | succ skip => exact absurd hskip.tail.1 (by simp [hP b hb])
  | @cons b rest rest' h ih =>
    cases skip with
    | zero =>
      rw [nameRestLength, nameRestLength, read_forked hascii h b]
      cases hread : Text.Rune.read b rest' with
      | fault size reason => rfl
      | char code size =>
        dsimp only
        split
        · rename_i hname
          -- the rune is read the same in both texts, and a rune of a name moves the fork inside its tail
          rw [← read_forked hascii h b] at hread
          rw [ih (isNameRest_named hread hname).2]
        · rfl
    | succ skip => rw [nameRestLength, nameRestLength, ih hskip.tail.2]

/-- **A name is the same** before bytes that are forked at a byte that is no part of names. -/
theorem name_forked (hP : ∀ b, P b → isNameByte b = false) (h : Forked P A B) : nameLength A = nameLength B := by
  have hascii : ∀ b, P b → b < 0x80 := fun b hb => by
    have hname := hP b hb
    simp only [isNameByte, Bool.or_eq_false_iff, decide_eq_false_iff_not] at hname
    exact UInt8.not_le.mp hname.1
  -- a name cannot begin at the fork itself: the stop is no letter
  cases h with
  | @stop b hb rest rest' =>
    have hname := hP b hb
    simp only [isNameByte, Bool.or_eq_false_iff] at hname
    have hstart : Text.isNameStart b.toNat = false := by
      rw [← Bool.not_eq_true]
      exact fun hstart => by simp [isNameRest_of_isNameStart hstart] at hname
    have hread : ∀ rest, Text.Rune.read b rest = .char b.toNat 1 := fun rest => if_pos (hascii b hb)
    simp [nameLength, hread, hstart]
  | @cons b rest rest' h =>
    rw [nameLength, nameLength, read_forked hascii h b]
    cases hread : Text.Rune.read b rest' with
    | fault size reason => rfl
    | char code size =>
      dsimp only
      -- after the first letter the rest is the rest of a name, which `nameRest_forked` reads
      split
      · rename_i hname
        rw [← read_forked hascii h b] at hread
        rw [nameRest_forked hP h (isNameRest_named hread (isNameRest_of_isNameStart hname)).2]
      · rfl

/-! ### Numbers -/

theorem digitsLength_cons (digit : UInt8 → Bool) (a b : UInt8) (more : Bytes) :
    digitsLength digit (a :: b :: more) = if digit a then
      if b == 0x5f && more.head?.any digit then digitsLength digit more + 2
      else digitsLength digit (b :: more) + 1 else 0 := by
  cases more with
  | nil => simp [digitsLength]
  | cons c more => simp [digitsLength]

/-- The length of a point and the digits behind it; a point that counts for nothing is none. -/
def fractionLength (digit : UInt8 → Bool) (bare : Nat → Bool) : Bytes → Nat
  | b :: rest => if b == 0x2e then if bare (digitsLength digit rest) then 0 else digitsLength digit rest + 1 else 0
  | [] => 0

theorem numeral_fraction {digit : UInt8 → Bool} (hdigit : ∀ x, digit x = true → isNumeral x = true)
    (bare : Nat → Bool) (bytes : Bytes) : Numeral bytes (fractionLength digit bare bytes) := by
  cases bytes with
  | nil => exact .zero _
  | cons b rest =>
    rw [fractionLength]
    split
    · rename_i hb
      split
      · exact .zero _
      · rw [beq_iff_eq.mp hb]
        exact .cons (by decide) (numeral_digits hdigit _)
    · exact .zero _

/-- A decimal literal has digits, a fraction and an exponent. -/
theorem decimalLength_eq (bytes : Bytes) : decimalLength bytes =
    let whole := digitsLength isDigit bytes
    let fraction := fractionLength isDigit (fun n => whole == 0 && n == 0) (bytes.drop whole)
    if whole + fraction == 0 then 0
    else whole + fraction + exponentLength isDecimalMark ((bytes.drop whole).drop fraction) := by
  unfold decimalLength fractionLength
  cases bytes.drop (digitsLength isDigit bytes) <;> rfl

/-- A literal with a base marker has digits of this base, and a hexadecimal one may have a fraction and an
    exponent. -/
theorem basedLength_eq (z m : UInt8) (rest : Bytes) : basedLength (z :: m :: rest) =
    if z != 0x30 then 0
    else if m == 0x78 || m == 0x58 then
      let whole := prefixedDigits isHexDigit rest
      let fraction := fractionLength isHexDigit (fun _ => false) (rest.drop whole)
      let power := exponentLength isBinaryMark ((rest.drop whole).drop fraction)
      if power != 0 && (0 < whole || 1 < fraction) then whole + fraction + power + 2
      else if whole == 0 then 0 else whole + 2
    else if m == 0x62 || m == 0x42 then
      let n := prefixedDigits (fun b => b == 0x30 || b == 0x31) rest
      if n == 0 then 0 else n + 2
    else if m == 0x6f || m == 0x4f then
      let n := prefixedDigits (fun b => 0x30 ≤ b && b ≤ 0x37) rest
      if n == 0 then 0 else n + 2
    else 0 := by
  unfold basedLength fractionLength
  cases rest.drop (prefixedDigits isHexDigit rest) <;> rfl

section Numbers

variable (hP : ∀ b, P b → isNumeral b = false)

include hP

/-- Digits are the same before bytes that are forked at a byte that is no part of numbers. -/
theorem digits_forked {digit : UInt8 → Bool} (hdigit : ∀ x, digit x = true → isNumeral x = true)
    (h : Forked P A B) : digitsLength digit A = digitsLength digit B := by
  have hnone {b : UInt8} (hb : P b) : digit b = false ∧ b ≠ 0x5f := by
    have hnumeral := hP b hb
    constructor
    · rw [← Bool.not_eq_true]
      exact fun hd => by rw [hdigit b hd] at hnumeral; cases hnumeral
    · rintro rfl
      cases hnumeral
  have hzero {b : UInt8} (hb : P b) (rest : Bytes) : digitsLength digit (b :: rest) = 0 := by
    cases rest with
    | nil => simp [digitsLength, hnone hb]
    | cons c more => rw [digitsLength_cons, (hnone hb).1]; rfl
  -- the next two bytes decide whether there is an underscore between digits
  obtain ⟨n, hn⟩ : ∃ n, A.length ≤ n := ⟨_, Nat.le_refl _⟩
  induction n generalizing A B with
  | zero => cases h <;> simp at hn
  | succ n ih =>
    cases h with
    | stop hb => rw [hzero hb, hzero hb]
    | cons h =>
      cases h with
      | stop hb rest rest' =>
        rw [digitsLength_cons, digitsLength_cons, hzero hb, hzero hb]
        simp [(hnone hb).2]
      | @cons b more more' h =>
        simp only [List.length_cons] at hn
        have hrest : digitsLength digit (b :: more) = digitsLength digit (b :: more') :=
          ih (.cons h) (by rw [List.length_cons]; omega)
        rw [digitsLength_cons, digitsLength_cons, hrest, ih h (by omega), h.head?_eq]

theorem prefixedDigits_forked {digit : UInt8 → Bool} (hdigit : ∀ x, digit x = true → isNumeral x = true)
    (h : Forked P A B) : prefixedDigits digit A = prefixedDigits digit B := by
  have hsame := digits_forked hP hdigit h
  cases h with
  | @stop b hb =>
    have hmark : (b == 0x5f) = false := by
      rw [beq_eq_false_iff_ne]
      rintro rfl
      cases hP _ hb
    simp only [prefixedDigits, hmark, Bool.false_eq_true, if_false, hsame]
  | cons h => simp only [prefixedDigits, hsame, digits_forked hP hdigit h]

theorem exponent_forked {marker : UInt8 → Bool} (hmarker : ∀ x, marker x = true → isNumeral x = true)
    (h : Forked P A B) : exponentLength marker A = exponentLength marker B := by
  have hdigits {A B : Bytes} (h : Forked P A B) : digitsLength isDigit A = digitsLength isDigit B :=
    digits_forked hP (fun _ => isDigit_numeral) h
  cases h with
  | @stop b hb =>
    have hnone : marker b = false := by
      rw [← Bool.not_eq_true]
      exact fun hm => absurd (hmarker b hm) (by simp [hP b hb])
    simp [exponentLength, hnone]
  | @cons m rest rest' h =>
    -- a sign or none
    have hsame := hdigits h
    cases h with
    | @stop s hs more more' =>
      have hsign : (s == 0x2b || s == 0x2d) = false := by
        rw [Bool.or_eq_false_iff, beq_eq_false_iff_ne, beq_eq_false_iff_ne]
        constructor <;> rintro rfl <;> cases hP _ hs
      simp only [exponentLength, hsign, Bool.false_eq_true, if_false, List.drop_zero, hsame]
    | @cons s more more' h =>
      simp only [exponentLength]
      split
      · cases hsign : s == 0x2b || s == 0x2d with
        | true => simp only [if_true, List.drop_succ_cons, List.drop_zero, hdigits h]
        | false => simp only [Bool.false_eq_true, if_false, List.drop_zero, hsame]
      · rfl

/-- Behind what may be part of a number the bytes are still forked. -/
theorem Forked.drop_numeral (h : Forked P A B) (hn : Numeral A n) : Forked P (A.drop n) (B.drop n) :=
  h.drop (hn.mono fun b hb hPb => by rw [hP b hPb] at hb; cases hb)

/-- A fraction is the same before forked bytes, and the bytes behind it are still forked. -/
theorem fraction_forked {digit : UInt8 → Bool} (hdigit : ∀ x, digit x = true → isNumeral x = true) (bare : Nat → Bool)
    (h : Forked P A B) : fractionLength digit bare A = fractionLength digit bare B ∧
      Forked P (A.drop (fractionLength digit bare A)) (B.drop (fractionLength digit bare A)) := by
  have hsame : fractionLength digit bare A = fractionLength digit bare B := by
    cases h with
    | @stop b hb =>
      have hdot : b ≠ 0x2e := by
        rintro rfl
        cases hP _ hb
      simp [fractionLength, hdot]
    | cons h => simp only [fractionLength, digits_forked hP hdigit h]
  exact ⟨hsame, h.drop_numeral hP (numeral_fraction hdigit bare A)⟩

theorem decimal_forked (h : Forked P A B) : decimalLength A = decimalLength B := by
  have hdigit : ∀ x, isDigit x = true → isNumeral x = true := fun _ => isDigit_numeral
  have hmark : ∀ x, isDecimalMark x = true → isNumeral x = true := fun x hx => by
    rw [isDecimalMark, Bool.or_eq_true, beq_iff_eq, beq_iff_eq] at hx
    rcases hx with rfl | rfl <;> decide
  have hafter := h.drop_numeral hP (numeral_digits hdigit A)
  obtain ⟨hfraction, hbehind⟩ := fraction_forked hP hdigit (fun n => digitsLength isDigit A == 0 && n == 0) hafter
  rw [decimalLength_eq, decimalLength_eq, ← digits_forked hP hdigit h]
  dsimp only
  rw [← hfraction, exponent_forked hP hmark hbehind]

theorem based_forked (h : Forked P A B) : basedLength A = basedLength B := by
  -- a based number begins with a zero and a letter; the fork may stand at either or behind both
  cases h with
  | @stop z hz rest rest' =>
    have hzero : (z != 0x30) = true := by
      rw [bne_iff_ne]
      rintro rfl
      cases hP _ hz
    cases rest <;> cases rest' <;> simp [basedLength, hzero]
  | @cons z A B h =>
    cases h with
    | @stop m hm rest rest' =>
      -- no letter that names a base is a stop
      have hnone (c : UInt8) (hc : isNumeral c = true) : (m == c) = false := by
        rw [beq_eq_false_iff_ne]
        rintro rfl
        rw [hP _ hm] at hc
        cases hc
      simp [basedLength, hnone 0x78 (by decide), hnone 0x58 (by decide), hnone 0x62 (by decide),
        hnone 0x42 (by decide), hnone 0x6f (by decide), hnone 0x4f (by decide)]
    | @cons m A B h =>
      have hhex : ∀ x, isHexDigit x = true → isNumeral x = true := fun _ => isHexDigit_numeral
      have hmark : ∀ x, isBinaryMark x = true → isNumeral x = true := fun x hx => by
        rw [isBinaryMark, Bool.or_eq_true, beq_iff_eq, beq_iff_eq] at hx
        rcases hx with rfl | rfl <;> decide
      have hbits : ∀ x : UInt8, (x == 0x30 || x == 0x31) = true → isNumeral x = true := fun x hx => by
        rw [Bool.or_eq_true, beq_iff_eq, beq_iff_eq] at hx
        rcases hx with rfl | rfl <;> decide
      have hoctal : ∀ x : UInt8, (decide (0x30 ≤ x) && decide (x ≤ 0x37)) = true → isNumeral x = true :=
        fun x hx => by
          rw [Bool.and_eq_true, decide_eq_true_eq, decide_eq_true_eq] at hx
          refine isDigit_numeral ?_
          simp only [isDigit, Bool.and_eq_true, decide_eq_true_eq]
          exact ⟨hx.1, UInt8.le_trans hx.2 (by decide)⟩
      -- the digits decide the rest, and they are the same; fraction and exponent follow one after the other
      obtain ⟨hfraction, hbehind⟩ := fraction_forked hP hhex (fun _ => false)
        (h.drop_numeral hP (numeral_prefixedDigits hhex A))
      rw [basedLength_eq, basedLength_eq, ← prefixedDigits_forked hP hhex h, ← prefixedDigits_forked hP hbits h,
        ← prefixedDigits_forked hP hoctal h]
      dsimp only
      rw [← hfraction, exponent_forked hP hmark hbehind]

/-- **A number is the same** before bytes that are forked at a byte that is no part of numbers. -/
theorem number_forked (h : Forked P A B) : numberLength A = numberLength B := by
  have hrun : Numeral A (if basedLength A == 0 then decimalLength A else basedLength A) := by
    split
    · exact numeral_decimal A
    · exact numeral_based A
  unfold numberLength
  rw [← based_forked hP h, ← decimal_forked hP h]
  dsimp only
  generalize (if basedLength A == 0 then decimalLength A else basedLength A) = n at hrun ⊢
  have hbehind := h.drop_numeral hP hrun
  generalize A.drop n = C at hbehind ⊢
  generalize B.drop n = D at hbehind ⊢
  cases hbehind <;> rfl

end Numbers

/-! ### Symbols -/

/-- A text is there or not, if no byte of the sort is in it but perhaps at its end. -/
theorem startsWith_forked {xs : Bytes} (hxs : ∀ b ∈ xs.dropLast, ¬ P b) (h : Forked P A B) :
    startsWith xs A = startsWith xs B := by
  -- induction on the symbol: only its last byte may be one at which the two texts part
  induction xs generalizing A B with
  | nil => rfl
  | cons x xs ih =>
    cases h with
    | @stop b hb rest rest' =>
      cases xs with
      | nil => simp [startsWith]
      -- a stop inside the symbol is excluded by the hypothesis
      | cons y ys =>
        have hne : (x == b) = false := by
          rw [beq_eq_false_iff_ne]
          rintro rfl
          exact hxs x (by simp) hb
        simp [startsWith, hne]
    | cons h =>
      rw [startsWith, startsWith, ih (fun b hb => hxs b ?_) h]
      cases xs with
      | nil => cases hb
      | cons y ys => exact List.mem_cons_of_mem x hb

/-- The longest of some texts is the same, if each of them is. -/
theorem longestOf_congr {texts : List String}
    (h : ∀ t ∈ texts, startsWith (Text.encode t) A = startsWith (Text.encode t) B) :
    longestOf texts A = longestOf texts B := by
  unfold longestOf
  refine List.foldl_ext _ _ _ fun best t ht => ?_
  rw [h t ht]

/-! ### Literals in quotes -/

theorem runLength_forked {p : UInt8 → Bool} (hP : ∀ b, P b → p b = false) (h : Forked P A B) :
    runLength p A = runLength p B := by
  induction h with
  | stop hb => simp [runLength, hP _ hb]
  | @cons b rest rest' h ih =>
    cases hb : p b with
    | false => simp [runLength, hb]
    | true =>
      simp only [runLength] at ih
      simp [runLength, hb, ih]

theorem escape_forked (hP : ∀ b, P b → b = 0x22 ∨ b = 0x27) (h : Forked P A B) :
    escapeLength A = escapeLength B := by
  have hhex {A B : Bytes} (h : Forked P A B) : runLength isHexDigit A = runLength isHexDigit B :=
    runLength_forked (fun b hb => by rcases hP b hb with rfl | rfl <;> decide) h
  cases h with
  | @stop b hb rest rest' => rcases hP b hb with rfl | rfl <;> rfl
  | cons h => simp only [escapeLength, hhex h]

/-- The bytes that begin like others, one more of which is known. -/
theorem exists_of_take_succ (h : (a :: A).take (n + 1) = B.take (n + 1)) :
    ∃ B', B = a :: B' ∧ A.take n = B'.take n := by
  cases B with
  | nil => simp at h
  | cons b B =>
    rw [List.take_succ_cons, List.take_succ_cons, List.cons.injEq] at h
    exact ⟨B, by rw [h.1], h.2⟩

theorem stringRest_of_take {skip : Nat} (h : stringRestLength? skip A = some n) (htake : A.take n = B.take n) :
    stringRestLength? skip B = some n := by
  fun_induction stringRestLength? skip A generalizing B n with
  | case1 => cases h
  | case2 skip x rest ih =>
    obtain ⟨k, hk, rfl⟩ := Option.map_eq_some_iff.mp h
    obtain ⟨B', rfl, hrest⟩ := exists_of_take_succ htake
    rw [stringRestLength?, ih hk hrest]
    rfl
  | case3 x rest hx =>
    cases h
    obtain ⟨B', rfl, -⟩ := exists_of_take_succ htake
    rw [stringRestLength?, if_pos hx]
  | case4 => cases h
  | case5 => cases h
  | case6 x rest hx hfeed hescape length hlength =>
    rename_i ih
    obtain ⟨k, hk, rfl⟩ := Option.map_eq_some_iff.mp h
    obtain ⟨B', rfl, hrest⟩ := exists_of_take_succ htake
    -- the escape is the same, as the quote at the end is no part of it
    obtain ⟨hpos, hlast⟩ := stringRest_last hk
    have hsame : escapeLength rest = escapeLength B' :=
      escape_forked (P := (· = 0x22)) (fun b hb => .inl hb) (.of_take hrest (by omega) hlast rfl)
    rw [stringRestLength?, if_neg hx, if_neg hfeed, if_pos hescape, ← hsame]
    dsimp only
    rw [if_neg hlength, ih hk hrest]
    rfl
  | case7 x rest hx hfeed hescape ih =>
    obtain ⟨k, hk, rfl⟩ := Option.map_eq_some_iff.mp h
    obtain ⟨B', rfl, hrest⟩ := exists_of_take_succ htake
    rw [stringRestLength?, if_neg hx, if_neg hfeed, if_neg hescape, ih hk hrest]
    rfl

/-- A string is the same before bytes that agree with it. -/
theorem string_of_take (h : stringLength A ≠ 0) (htake : A.take (stringLength A) = B.take (stringLength A)) :
    stringLength B = stringLength A := by
  cases A with
  | nil => exact absurd rfl h
  | cons a A =>
    unfold stringLength at h htake ⊢
    dsimp only at h htake ⊢
    -- only a text that begins with a quote is measured; the rest of it is the inner text plus the quote
    split at h
    · rename_i ha
      simp only [ha, if_true] at htake ⊢
      cases hrest : stringRestLength? 0 A with
      | none => rw [hrest] at h; exact absurd rfl h
      | some n =>
        rw [hrest] at htake
        obtain ⟨B', rfl, hbehind⟩ := exists_of_take_succ (n := n) htake
        simp only [ha, if_true]
        rw [stringRest_of_take hrest hbehind]
    · exact absurd rfl h

/-- A run of bytes that is not all there is ends before a byte that is not of the class. -/
theorem getElem?_runLength {p : UInt8 → Bool} (h : runLength p A < A.length) :
    ∃ b, A[runLength p A]? = some b ∧ p b = false := by
  refine ⟨A[runLength p A], List.getElem?_eq_getElem h, ?_⟩
  have hhead := List.head?_dropWhile_not p A
  have hindex : A[(A.takeWhile p).length]? = some A[runLength p A] := List.getElem?_eq_getElem h
  rw [← drop_runLength, List.head?_drop, hindex] at hhead
  exact hhead

/-- A raw string is the same before bytes that agree with it. -/
theorem raw_of_take (h : rawLength A ≠ 0) (htake : A.take (rawLength A) = B.take (rawLength A)) :
    rawLength B = rawLength A := by
  cases A with
  | nil => exact absurd rfl h
  | cons a A =>
    unfold rawLength at h htake ⊢
    dsimp only at h htake ⊢
    split_ifs at h htake ⊢ with ha hlt
    -- the closing quote stands at the end of the run, so both runs end there
    · obtain ⟨B', rfl, hrest⟩ := exists_of_take_succ htake
      obtain ⟨b, hb, hquote⟩ := getElem?_runLength hlt
      have hsame : runLength (· != 0x60) A = runLength (· != 0x60) B' :=
        runLength_forked (P := fun b => (b != 0x60) = false) (fun b hb => hb)
          (.of_take hrest (Nat.lt_succ_self _) hb hquote)
      have hlength := congrArg List.length hrest
      -- the run's own length is then the number of bytes both texts share
      rw [List.length_take, List.length_take] at hlength
      simp only [ha, if_true, ← hsame]
      rw [if_pos (by omega)]
    · exact absurd rfl h
    · exact absurd rfl h

/-- The length of what stands between the quotes of a rune literal that begins with some byte. -/
def innerLength (a : UInt8) (rest : Bytes) : Nat :=
  if a == 0x5c then
    if 3 ≤ runLength (fun b => 0x30 ≤ b && b ≤ 0x37) rest then 4 else escapeLength rest + 1
  else runeSize (a :: rest)

/-- A rune literal ends with a quote behind what stands between its quotes. -/
theorem runeLength_eq (q a : UInt8) (rest : Bytes) : runeLength (q :: a :: rest) =
    if q != 0x27 || a == 0x27 then 0
    else if (a :: rest)[innerLength a rest]? = some 0x27 then innerLength a rest + 2 else 0 := by
  unfold runeLength
  dsimp only
  rw [← innerLength, ← List.head?_drop]
  cases (a :: rest).drop (innerLength a rest) <;> simp

theorem innerLength_pos (a : UInt8) (rest : Bytes) : innerLength a rest ≠ 0 := by
  unfold innerLength runeSize
  split
  · split <;> omega
  · dsimp only
    split
    · rename_i hread
      rcases read_cases hread with ⟨-, rfl⟩ | ⟨hhigh, -⟩
      · decide
      · rintro rfl
        -- no character takes no bytes
        unfold Text.Rune.read at hread
        repeat' split at hread
        all_goals cases hread
    · decide

/-- A rune literal is the same before bytes that agree with it. -/
theorem rune_of_take (h : runeLength A ≠ 0) (htake : A.take (runeLength A) = B.take (runeLength A)) :
    runeLength B = runeLength A := by
  rcases A with - | ⟨q, - | ⟨a, A⟩⟩
  · exact absurd rfl h
  · exact absurd rfl h
  · rw [runeLength_eq] at h htake ⊢
    split_ifs at h htake ⊢ with hquote hlast
    · exact absurd rfl h
    · obtain ⟨m, hm⟩ := Nat.exists_eq_succ_of_ne_zero (innerLength_pos a A)
      obtain ⟨B', rfl, hrest⟩ := exists_of_take_succ htake
      obtain ⟨B', rfl, hrest'⟩ := exists_of_take_succ hrest
      have hquoted : A[m]? = some 0x27 := by rw [hm] at hlast; exact hlast
      have hforked : Forked (· = 0x27) A B' := .of_take hrest' (by omega) hquoted rfl
      -- the quote at the end is no part of what is before it
      have hsame : innerLength a A = innerLength a B' := by
        unfold innerLength runeSize
        dsimp only
        rw [runLength_forked (p := fun b => 0x30 ≤ b && b ≤ 0x37) (by rintro b rfl; decide) hforked,
          escape_forked (fun b hb => .inr hb) hforked, read_forked (by rintro b rfl; decide) hforked]
      have hend : (a :: B')[innerLength a B']? = some 0x27 := by
        rw [← hsame, hm, List.getElem?_cons_succ, ← hquoted]
        have hget := congrArg (·[m]?) hrest'
        simpa [List.getElem?_take, show m < innerLength a A by omega] using hget.symm
      rw [runeLength_eq, if_neg hquote, if_pos hend, hsame]
    · exact absurd rfl h

/-! ### Comments -/

theorem block_of_take (h : blockLength? A = some n) (htake : A.take n = B.take n) : blockLength? B = some n := by
  -- the recursion of the length itself: the closing pair, a star that goes on, and any other byte
  fun_induction blockLength? A generalizing B n with
  | case1 => cases h
  | case2 a b rest ha hb =>
    cases h
    obtain ⟨B', rfl, hrest⟩ := exists_of_take_succ htake
    obtain ⟨B', rfl, -⟩ := exists_of_take_succ hrest
    simp [blockLength?, ha, hb]
  -- a star that does not close: the byte behind it is in the shared part too
  | case3 a b rest ha hb ih =>
    obtain ⟨k, hk, rfl⟩ := Option.map_eq_some_iff.mp h
    obtain ⟨B', rfl, hrest⟩ := exists_of_take_succ htake
    obtain ⟨hpos, -⟩ := blockLength_last hk
    obtain ⟨j, rfl⟩ := Nat.exists_eq_succ_of_ne_zero hpos
    have hinner := ih hk hrest
    obtain ⟨B'', rfl, -⟩ := exists_of_take_succ hrest
    rw [beq_iff_eq.mp ha, blockLength?]
    · rw [if_neg hb, hinner]
      rfl
    · rfl
  -- any other byte: in the second text the third clause applies as well
  | case4 a rest hother ih =>
    obtain ⟨k, hk, rfl⟩ := Option.map_eq_some_iff.mp h
    obtain ⟨B', rfl, hrest⟩ := exists_of_take_succ htake
    cases rest with
    | nil => cases hk
    | cons b rest =>
      have ha : (a == 0x2a) = false := by
        rw [← Bool.not_eq_true]
        exact fun ha => hother b rest ha rfl
      rw [blockLength?]
      · rw [ih hk hrest]
        rfl
      · simp [ha]

/-- A line is the same before bytes that agree with it and end it, too. -/
theorem line_of_take (htake : A.take (lineLength A) = B.take (lineLength A))
    (hnext : ∀ x, B[lineLength A]? = some x → x = 0 ∨ x = Bytes.newline) : lineLength B = lineLength A := by
  -- a line comment is the longest part without a line feed or a zero byte
  have hline : A.take (lineLength A) = A.takeWhile fun b => b != Bytes.newline && b != 0 := by
    have hsplit := (List.takeWhile_append_dropWhile (p := fun b => b != Bytes.newline && b != 0) (l := A)).symm
    rw [lineLength]
    nth_rewrite 2 [hsplit]
    exact List.take_left' rfl
  -- in the second text the part ends at the same byte, by the hypothesis on what follows
  have hend : (B.drop (lineLength A)).takeWhile (fun b => b != Bytes.newline && b != 0) = [] := by
    cases hdrop : B.drop (lineLength A) with
    | nil => rfl
    | cons x rest =>
      have hx : B[lineLength A]? = some x := by rw [← List.head?_drop, hdrop]; rfl
      refine List.takeWhile_cons_of_neg ?_
      rcases hnext x hx with rfl | rfl <;> decide
  have hsame : B.takeWhile (fun b => b != Bytes.newline && b != 0) = A.take (lineLength A) := by
    rw [← List.take_append_drop (lineLength A) B, ← htake, List.takeWhile_append_of_pos, hend, List.append_nil]
    rw [hline]
    exact List.all_eq_true.mp (List.all_takeWhile ..)
  rw [lineLength, hsame, hline]
  rfl

/-- **A comment is the same** before bytes that agree with it and end the line behind it, if it goes up to there. -/
theorem comment_of_take (h : commentLength A ≠ 0) (htake : A.take (commentLength A) = B.take (commentLength A))
    (hnext : A[1]? = some 0x2f → ∀ x, B[commentLength A]? = some x → x = 0 ∨ x = Bytes.newline) :
    commentLength B = commentLength A := by
  rcases A with - | ⟨a, - | ⟨b, A⟩⟩
  · exact absurd rfl h
  · exact absurd rfl h
  · unfold commentLength at h htake hnext
    dsimp only at h htake hnext
    split_ifs at h htake hnext with hline hblock
    · -- the two slashes are there
      obtain ⟨n, hn⟩ : ∃ n, lineLength (a :: b :: A) = n + 2 := by
        rw [Bool.and_eq_true, beq_iff_eq, beq_iff_eq] at hline
        rw [hline.1, hline.2]
        exact ⟨_, rfl⟩
      obtain ⟨-, hslash⟩ := Bool.and_eq_true_iff.mp hline
      have hsame := line_of_take htake (hnext (by rw [beq_iff_eq.mp hslash]; rfl))
      rw [hn] at htake
      obtain ⟨B', rfl, hrest⟩ := exists_of_take_succ htake
      obtain ⟨B', rfl, -⟩ := exists_of_take_succ hrest
      simp only [commentLength, hline, if_true]
      exact hsame
    · cases hlength : blockLength? A with
      | none => rw [hlength] at h; exact absurd rfl h
      | some n =>
        rw [hlength] at htake
        obtain ⟨B', rfl, hrest⟩ := exists_of_take_succ (n := n + 1) htake
        obtain ⟨B', rfl, hrest'⟩ := exists_of_take_succ hrest
        simp only [commentLength, hline, hblock, if_true, hlength, block_of_take hlength hrest', Bool.false_eq_true,
          if_false]
    · exact absurd rfl h

/-- Where there is no comment and none opens, there is none before bytes that agree with two of them. -/
theorem noComment_of_take (h : commentLength A = 0) (hopens : startsWith [0x2f, 0x2a] A = false)
    (htake : A.take 2 = B.take 2) : commentLength B = 0 := by
  have hline : startsWith [0x2f, 0x2f] A = false := by
    rw [← Bool.not_eq_true]
    -- two bytes decide whether a comment begins, and both texts begin with the same two
    intro hstarts
    rcases A with - | ⟨a, - | ⟨b, A⟩⟩
    · cases hstarts
    · simp [startsWith] at hstarts
    · simp only [startsWith, Bool.and_true, Bool.and_eq_true, beq_iff_eq] at hstarts
      rw [← hstarts.1, ← hstarts.2] at h
      cases h
  -- either text begins with a slash and `x` exactly when its first two bytes do
  have hB {x : UInt8} (hx : startsWith [0x2f, x] A = false) : startsWith [0x2f, x] B = false := by
    have hsame : startsWith [0x2f, x] (A.take 2) = startsWith [0x2f, x] (B.take 2) := by rw [htake]
    have htwo (C : Bytes) : startsWith [0x2f, x] (C.take 2) = startsWith [0x2f, x] C := by
      rcases C with - | ⟨a, - | ⟨b, C⟩⟩ <;> rfl
    rw [← htwo, ← hsame, htwo, hx]
  have hopens' := hB hopens
  have hline' := hB hline
  rcases B with - | ⟨a, - | ⟨b, B⟩⟩
  · rfl
  · rfl
  · simp only [startsWith, Bool.and_true, Bool.and_eq_false_iff, beq_eq_false_iff_ne] at hopens' hline'
    rw [commentLength, if_neg, if_neg]
    · simp only [Bool.and_eq_true, beq_iff_eq, not_and]
      rintro rfl rfl
      simp at hopens'
    · simp only [Bool.and_eq_true, beq_iff_eq, not_and]
      rintro rfl rfl
      simp at hline'

/-! ### Forms -/

/-- The text is a single byte that begins no literal, or begins with such a byte that ends no statement and goes on with
    bytes that are pieces of their own and do not tell the mood. -/
def isSymbolText (t : String) : Bool :=
  match Text.encode t with
  | [] => false
  | b :: rest => !Bytes.isBlank b && b != 0x22 && b != 0x60 && b != 0x27 && b != 0
      && t.utf8ByteSize == rest.length + 1 && (rest.isEmpty || !isStop b && rest.all (!isSpecial ·))

/-- The symbols that the form asks for are such texts, and it takes no name for a mark. -/
def Form.clear : Form → Bool
  | .symbol accepted rivals => (accepted ++ rivals).all isSymbolText
  | .name kind _ => kind != ""
  | _ => true

theorem isSpecial_of_isStop (h : isStop b = true) : isSpecial b = true := by
  simp only [isStop, Bool.or_eq_true, beq_iff_eq] at h
  rcases h with ((rfl | rfl) | rfl) | rfl <;> decide

/-- A byte that ends a statement or opens a parenthesis is at the end of a symbol. -/
theorem isStop_of_isSymbolText {t : String} (h : isSymbolText t = true) :
    -- only the last byte of a symbol can be a stop: the others are checked in its definition
    ∀ b ∈ (Text.encode t).dropLast, isStop b = false := by
  unfold isSymbolText at h
  split at h
  · cases h
  · rename_i b rest hencode
    rw [hencode]
    simp only [Bool.and_eq_true, Bool.or_eq_true, Bool.not_eq_true'] at h
    rcases h.2 with hempty | ⟨hstop, hrest⟩
    · rw [List.isEmpty_iff.mp hempty]
      exact fun c hc => by cases hc
    -- a symbol of two bytes or more has its stops among the special bytes, which its tail has none of
    · intro c hc
      rcases List.mem_cons.mp (List.dropLast_subset _ hc) with rfl | hc
      · exact hstop
      · rw [← Bool.not_eq_true]
        intro hc'
        have hspecial := List.all_eq_true.mp hrest c hc
        rw [isSpecial_of_isStop hc'] at hspecial
        cases hspecial

theorem isNumeral_of_isStop (h : isStop b = true) : isNumeral b = false := by
  simp only [isStop, Bool.or_eq_true, beq_iff_eq] at h
  rcases h with ((rfl | rfl) | rfl) | rfl <;> decide

theorem isNameByte_of_isStop (h : isStop b = true) : isNameByte b = false := by
  simp only [isStop, Bool.or_eq_true, beq_iff_eq] at h
  rcases h with ((rfl | rfl) | rfl) | rfl <;> decide +kernel

/-- The literals in quotes at the head of bytes whose first piece is there. -/
theorem quoted_of_take (hcode : commentLength A = 0) (hpiece : pieceLength A ≠ 0)
    (htake : A.take (pieceLength A) = B.take (pieceLength A)) :
    stringLength B = stringLength A ∧ rawLength B = rawLength A ∧ runeLength B = runeLength A := by
  cases A with
  | nil => exact absurd rfl hpiece
  | cons a A =>
    obtain ⟨n, hn⟩ := Nat.exists_eq_succ_of_ne_zero hpiece
    have hfirst := htake
    rw [hn] at hfirst
    obtain ⟨B', rfl, -⟩ := exists_of_take_succ hfirst
    -- at most one sort of literal begins with the first byte
    have hnone {length : Bytes → Nat} {q : UInt8} (hlength : ∀ C, a ≠ q → length (a :: C) = 0) (hq : a ≠ q) :
        length (a :: B') = length (a :: A) := by rw [hlength _ hq, hlength _ hq]
    have hstring (C : Bytes) (h : a ≠ 0x22) : stringLength (a :: C) = 0 := by simp [stringLength, h]
    have hraw (C : Bytes) (h : a ≠ 0x60) : rawLength (a :: C) = 0 := by simp [rawLength, h]
    have hrune (C : Bytes) (h : a ≠ 0x27) : runeLength (a :: C) = 0 := by cases C <;> simp [runeLength, h]
    simp only [pieceLength, hcode, bne_self_eq_false, Bool.false_eq_true, if_false] at hpiece htake
    by_cases h₁ : a = 0x22
    · subst h₁
      exact ⟨string_of_take hpiece htake, hnone hraw (by decide), hnone hrune (by decide)⟩
    · simp only [beq_eq_false_iff_ne.mpr h₁, Bool.false_eq_true, if_false] at hpiece htake
      by_cases h₂ : a = 0x60
      · subst h₂
        exact ⟨hnone hstring h₁, raw_of_take hpiece htake, hnone hrune (by decide)⟩
      · simp only [beq_eq_false_iff_ne.mpr h₂, Bool.false_eq_true, if_false] at hpiece htake
        by_cases h₃ : a = 0x27
        · subst h₃
          exact ⟨hnone hstring h₁, hnone hraw h₂, rune_of_take hpiece htake⟩
        · exact ⟨hnone hstring h₁, hnone hraw h₂, hnone hrune h₃⟩

/-- **A form finds the same** before bytes that are forked at a byte that ends a statement or opens a parenthesis, and
    behind the first piece. -/
theorem Form.scan_forked {form : Form} (hclear : form.clear = true) (h : Forked (isStop · = true) A B)
    (hcode : commentLength A = 0) (hpiece : pieceLength A ≠ 0)
    (htake : A.take (pieceLength A) = B.take (pieceLength A)) : form.scan B = form.scan A := by
  have hname : nameLength B = nameLength A := (name_forked (fun _ => isNameByte_of_isStop) h).symm
  have htext : B.take (nameLength A) = A.take (nameLength A) :=
    (h.take_eq ((named_name A).mono fun b hb hstop => by rw [isNameByte_of_isStop hstop] at hb; cases hb)).symm
  obtain ⟨hstring, hraw, hrune⟩ := quoted_of_take hcode hpiece htake
  -- each form reads a part that lies before the fork, so its length is the same in both
  cases form with
  | word text => simp only [scan, hname, htext]
  | name kind reserved => simp only [scan, hname, htext]
  -- a symbol is the longest of those accepted; a rival that only matches in one text would contain the stop
  | symbol accepted rivals =>
    have hsame : longestOf (accepted ++ rivals) B = longestOf (accepted ++ rivals) A := by
      refine longestOf_congr fun t ht => (startsWith_forked (fun b hb hstop => ?_) h).symm
      rw [isStop_of_isSymbolText (List.all_eq_true.mp hclear t ht) b hb] at hstop
      cases hstop
    simp only [scan, hsame]
  | number => rw [scan, scan, number_forked (fun _ => isNumeral_of_isStop) h]
  | rune => rw [scan, scan, hrune]
  | string => rw [scan, scan, hstring]
  | raw => rw [scan, scan, hraw]
  | terminator => cases h <;> rfl
  | sameLine => rfl
  | finish => rfl

end Docsmith.Go
