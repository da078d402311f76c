import Docsmith.Doc.Comment

namespace Docsmith.Doc

/-!
# Escapes in a string literal

A line stands escaped inside a triple-quoted literal: backslashes are doubled, and three quotes in a row
get a backslash each.  It is read back from there, and the literal goes on behind it, unless a quote at
the end of the line meets one behind it.

* `literalText?`: what a literal holds, and what is behind its closing quotes.
* `escapeLine_induction`: a line is escaped piece by piece.
* `literalText?_escapeLine`: an escaped line is read back.
* `lastQuotes`: the quotes at the end of a line, which are escaped three by three.
* `literalText?_guarded`, `literalText?_unguarded`: a line on its own, whose last quote is guarded.
-/

variable {a b line rest t : List Char} {c : Char}

/-! ### Reading a literal -/

/-- The text of a literal whose opening quotes have been read, and what is behind its closing quotes: the
    first three double quotes in a row of which none is escaped.  A backslash escapes a backslash or a
    double quote. -/
def literalText? : List Char → Option (List Char × List Char)
  | '"' :: '"' :: '"' :: rest => some ([], rest)
  | '\\' :: c :: rest =>
    if c == '\\' || c == '"' then (literalText? rest).map fun p => (c :: p.1, p.2) else none
  | c :: rest => (literalText? rest).map fun p => (c :: p.1, p.2)
  | [] => none

/-- A reading with some text before it. -/
def behind (s : List Char) (r : Option (List Char × List Char)) : Option (List Char × List Char) :=
  r.map fun p => (s ++ p.1, p.2)

theorem behind_nil (r : Option (List Char × List Char)) : behind [] r = r := by
  cases r <;> rfl

theorem behind_append (r : Option (List Char × List Char)) :
    behind (a ++ b) r = behind a (behind b r) := by
  cases r <;> simp [behind]

theorem literalText?_escape (rest : List Char) (hc : c = '\\' ∨ c = '"') :
    literalText? ('\\' :: c :: rest) = behind [c] (literalText? rest) := by
  rw [literalText?, if_pos (by simpa using hc)]
  rfl

theorem literalText?_plain (rest : List Char) (hslash : c ≠ '\\') (hquote : c ≠ '"') :
    literalText? (c :: rest) = behind [c] (literalText? rest) := by
  rw [literalText?]
  · rfl
  · simp [hquote]
  · simp [hslash]

theorem literalText?_quote (h : ¬ ['"', '"'] <+: rest) :
    literalText? ('"' :: rest) = behind ['"'] (literalText? rest) := by
  rw [literalText?]
  · rfl
  · rintro rest' - rfl
    exact h (by simp)
  · simp

/-! ### Escaped lines -/

theorem escapeLine_nil : escapeLine [] = [] := rfl

theorem escapeLine_three (rest : List Char) :
    escapeLine ('"' :: '"' :: '"' :: rest) = '\\' :: '"' :: '\\' :: '"' :: '\\' :: '"' :: escapeLine rest :=
  rfl

theorem escapeLine_backslash (rest : List Char) :
    escapeLine ('\\' :: rest) = '\\' :: '\\' :: escapeLine rest := rfl

/-- Doubling backslashes makes no quotes. -/
theorem quotes_of_doubleBackslashes (h : doubleBackslashes line = '"' :: '"' :: rest) :
    ['"', '"'] <+: line := by
  match line with
  | [] => cases h
  | [c] =>
    by_cases hc : c = '\\'
    · subst hc; cases h
    · simp [doubleBackslashes, hc] at h
  | c :: d :: more =>
    by_cases hc : c = '\\'
    · subst hc; cases h
    · by_cases hd : d = '\\'
      · subst hd; simp [doubleBackslashes, hc] at h
      · simp only [doubleBackslashes, List.flatMap_cons, beq_iff_eq, hc, hd, if_false, List.cons_append,
          List.nil_append, List.cons.injEq] at h
        rw [h.1, h.2.1]
        exact ⟨more, rfl⟩

theorem escapeLine_cons (hslash : c ≠ '\\') (hthree : c = '"' → ¬ ['"', '"'] <+: rest) :
    escapeLine (c :: rest) = c :: escapeLine rest := by
  have hdouble : doubleBackslashes (c :: rest) = c :: doubleBackslashes rest := by
    simp [doubleBackslashes, hslash]
  rw [escapeLine, hdouble, escapeTripleQuotes]
  · rfl
  · intro more hc hquotes
    exact hthree hc (quotes_of_doubleBackslashes hquotes)

/-- A line is escaped three quotes, a backslash or another character at a time. -/
theorem escapeLine_induction {motive : List Char → Prop} (nil : motive [])
    (three : ∀ rest, motive rest → motive ('"' :: '"' :: '"' :: rest))
    (slash : ∀ rest, motive rest → motive ('\\' :: rest))
    (other : ∀ c rest, c ≠ '\\' → (c = '"' → ¬ ['"', '"'] <+: rest) → motive rest →
      motive (c :: rest))
    (line : List Char) : motive line := by
  induction line using escapeTripleQuotes.induct with
  | case1 rest ih => exact three rest ih
  | case2 c rest hthree ih =>
    by_cases hslash : c = '\\'
    · exact hslash ▸ slash rest ih
    · exact other c rest hslash (fun hc ⟨more, hmore⟩ => hthree more hc hmore.symm) ih
  | case3 => exact nil

/-- An escaped line begins with a quote only if the line does. -/
theorem head_of_escapeLine (h : (escapeLine line ++ t).head? = some '"') :
    line.head? = some '"' ∨ line = [] ∧ t.head? = some '"' := by
  cases line with
  | nil => exact .inr ⟨rfl, h⟩
  | cons c rest =>
    by_cases hc : c = '"'
    · exact .inl (by rw [hc]; rfl)
    · by_cases hslash : c = '\\'
      · subst hslash
        rw [escapeLine_backslash] at h
        cases h
      · rw [escapeLine_cons hslash (fun hquote => absurd hquote hc)] at h
        exact absurd (Option.some.inj h) hc

/-- Two quotes begin a text if each of its first characters is one. -/
theorem quotes_isPrefix_iff {d : List Char} : ['"', '"'] <+: c :: d ↔ c = '"' ∧ d.head? = some '"' := by
  cases d <;> simp [eq_comm]

/-- An escaped line begins with two quotes only if the line does. -/
theorem quotes_of_escapeLine (h : ['"', '"'] <+: escapeLine line ++ t) : ['"', '"'] <+: line ++ t := by
  cases line with
  | nil => exact h
  | cons c d =>
    rw [List.cons_append, quotes_isPrefix_iff]
    -- an escaped line begins with a quote only if the line does and no two more quotes follow
    have hc : c = '"' := by
      obtain ⟨more, hmore⟩ := h
      have hhead : (escapeLine (c :: d) ++ t).head? = some '"' := by rw [← hmore]; rfl
      exact (head_of_escapeLine hhead).elim Option.some.inj fun hnil => nomatch hnil.1
    subst hc
    refine ⟨rfl, ?_⟩
    -- three quotes are escaped one by one, so the line goes on with the other two
    by_cases hthree : ['"', '"'] <+: d
    · obtain ⟨more, rfl⟩ := hthree
      rfl
    · rw [escapeLine_cons (by decide) fun _ => hthree, List.cons_append, quotes_isPrefix_iff] at h
      rcases head_of_escapeLine h.2 with hd | ⟨rfl, ht⟩
      · cases d with
        | nil => cases hd
        | cons => exact hd
      · exact ht

/-- No quote at the end of a text meets one at the beginning of the next. -/
def QuotesApart (a b : List Char) : Prop := a.getLast? ≠ some '"' ∨ b.head? ≠ some '"'

theorem QuotesApart.tail (h : QuotesApart (c :: rest) t) : QuotesApart rest t := by
  refine h.imp_left fun hlast => ?_
  cases rest with
  | nil => simp
  | cons d more => simpa using hlast

/-- There are no two quotes at the beginning of a text and another one behind it, if there are none in the
    text and none meet between the two. -/
theorem not_quotes_append (hquotes : ¬ ['"', '"'] <+: rest)
    (h : QuotesApart ('"' :: rest) t) : ¬ ['"', '"'] <+: rest ++ t := by
  match rest with
  | [] =>
    have ht : t.head? ≠ some '"' := h.resolve_left fun hlast => hlast rfl
    rintro ⟨more, rfl⟩
    exact ht rfl
  | [d] =>
    rw [List.singleton_append, quotes_isPrefix_iff]
    rintro ⟨rfl, ht⟩
    exact h.elim (fun hlast => hlast rfl) (fun hne => hne ht)
  | d :: e :: more => simpa using hquotes

/-- **An escaped line is read back**, unless a quote at its end meets another one behind it. -/
theorem literalText?_escapeLine (line t : List Char) (h : QuotesApart line t) :
    literalText? (escapeLine line ++ t) = behind line (literalText? t) := by
  induction line using escapeLine_induction with
  -- each step reads back one escape of the line, and what follows it has its quotes apart again
  | nil => rw [escapeLine_nil, List.nil_append, behind_nil]
  | three rest ih =>
    have hescape : ∀ r, literalText? ('\\' :: '"' :: r) = behind ['"'] (literalText? r) :=
      fun r => literalText?_escape r (.inr rfl)
    rw [escapeLine_three]
    simp only [List.cons_append, hescape, ih h.tail.tail.tail, ← behind_append]
    rfl
  | slash rest ih =>
    rw [escapeLine_backslash, List.cons_append, List.cons_append, literalText?_escape _ (.inl rfl),
      ih h.tail, ← behind_append]
    rfl
  | other c rest hslash hquotes ih =>
    rw [escapeLine_cons hslash hquotes, List.cons_append]
    -- a quote alone is read as it stands, since those behind it are escaped or are no quotes
    by_cases hquote : c = '"'
    · subst hquote
      rw [literalText?_quote fun hboth => not_quotes_append (hquotes rfl) h (quotes_of_escapeLine hboth),
        ih h.tail, ← behind_append]
      rfl
    · rw [literalText?_plain _ hslash hquote, ih h.tail, ← behind_append]
      rfl

/-- Lines are escaped one after the other, unless quotes meet between them. -/
theorem escapeLine_append (a b : List Char) (h : QuotesApart a b) :
    escapeLine (a ++ b) = escapeLine a ++ escapeLine b := by
  induction a using escapeLine_induction with
  | nil => rfl
  | three rest ih => simp only [List.cons_append, escapeLine_three, ih h.tail.tail.tail]
  | slash rest ih => simp only [List.cons_append, escapeLine_backslash, ih h.tail]
  | other c rest hslash hquotes ih =>
    have hboth : c = '"' → ¬ ['"', '"'] <+: rest ++ b := by
      rintro rfl
      exact not_quotes_append (hquotes rfl) h
    rw [escapeLine_cons hslash hquotes, List.cons_append, escapeLine_cons hslash hboth, ih h.tail]
    rfl

/-! ### Quotes at the end of a line -/

/-- The number of double quotes at the end of a line. -/
def lastQuotes (line : List Char) : Nat := (line.reverse.takeWhile (· == '"')).length

/-- A line is something that does not end in a quote, and quotes. -/
theorem lastQuotes_split (line : List Char) : ∃ base, base.getLast? ≠ some '"' ∧
    line = base ++ List.replicate (lastQuotes line) '"' := by
  have hquotes : line.reverse.takeWhile (· == '"') = List.replicate (lastQuotes line) '"' := by
    refine List.eq_replicate_iff.mpr ⟨rfl, fun c hc => ?_⟩
    exact eq_of_beq (List.all_eq_true.mp (List.all_takeWhile (p := (· == '"'))) c hc)
  refine ⟨(line.reverse.dropWhile (· == '"')).reverse, ?_, ?_⟩
  · rw [List.getLast?_reverse]
    intro hlast
    have hhead := List.head?_dropWhile_not (· == '"') line.reverse
    rw [hlast] at hhead
    cases hhead
  · rw [← List.reverse_inj, List.reverse_append, List.reverse_reverse, List.reverse_replicate,
      ← hquotes, List.takeWhile_append_dropWhile]

theorem lastQuotes_append {base : List Char} (h : base.getLast? ≠ some '"') (n : Nat) :
    lastQuotes (base ++ List.replicate n '"') = n := by
  have hnone : base.reverse.takeWhile (· == '"') = [] := by
    cases hbase : base.reverse with
    | nil => rfl
    | cons c more =>
      have hc : c ≠ '"' := fun hc => h (by rw [← List.head?_reverse, hbase, hc]; rfl)
      simp [hc]
  rw [lastQuotes, List.reverse_append, List.reverse_replicate, List.takeWhile_append_of_pos (by simp),
    hnone]
  simp

/-- A line that ends in quotes ends in one of them. -/
theorem exists_of_lastQuotes {n : Nat} (h : lastQuotes line = n + 1) :
    ∃ rest, line = rest ++ ['"'] ∧ lastQuotes rest = n := by
  obtain ⟨base, hbase, hline⟩ := lastQuotes_split line
  refine ⟨base ++ List.replicate n '"', ?_, lastQuotes_append hbase n⟩
  rw [hline, h, List.replicate_succ', List.append_assoc]

theorem escapeLine_threes (k : Nat) (b : List Char) :
    escapeLine (List.replicate (3 * k) '"' ++ b)
      = escapeLine (List.replicate (3 * k) '"') ++ escapeLine b := by
  induction k with
  | zero => rfl
  | succ k ih =>
    have hthree : List.replicate (3 * (k + 1)) '"' = '"' :: '"' :: '"' :: List.replicate (3 * k) '"' := rfl
    simp only [hthree, List.cons_append, escapeLine_three, ih]

/-- What is behind quotes that are escaped three by three is escaped on its own. -/
theorem escapeLine_append_of_dvd (h : 3 ∣ lastQuotes a) (b : List Char) :
    escapeLine (a ++ b) = escapeLine a ++ escapeLine b := by
  obtain ⟨base, hbase, ha⟩ := lastQuotes_split a
  obtain ⟨k, hk⟩ := h
  rw [hk] at ha
  rw [ha, List.append_assoc, escapeLine_append base _ (.inl hbase), escapeLine_append base _ (.inl hbase),
    escapeLine_threes, List.append_assoc]

/-- The quotes at the end of a line are some that are escaped three by three, and two, one or none. -/
theorem lastQuotes_cases (line : List Char) : ∃ a, 3 ∣ lastQuotes a ∧
    line = a ++ List.replicate (lastQuotes line % 3) '"' := by
  obtain ⟨base, hbase, hline⟩ := lastQuotes_split line
  refine ⟨base ++ List.replicate (3 * (lastQuotes line / 3)) '"', ?_, ?_⟩
  · rw [lastQuotes_append hbase]
    exact Nat.dvd_mul_right _ _
  · rw [List.append_assoc, List.replicate_append_replicate, Nat.div_add_mod]
    exact hline

/-! ### A literal on one line -/

theorem guardLastQuote_quote (body : List Char) : guardLastQuote (body ++ ['"']) = body ++ ['\\', '"'] := by
  simp [guardLastQuote]

theorem guardLastQuote_of_last {body : List Char} (h : body.getLast? ≠ some '"') :
    guardLastQuote body = body := by
  unfold guardLastQuote
  split
  · rename_i rest hbody
    exact absurd (by rw [← List.head?_reverse, hbody]; rfl) h
  · rfl

/-- An escaped line ends in a quote only if the line does. -/
theorem last_escapeLine (h : line.getLast? ≠ some '"') : (escapeLine line).getLast? ≠ some '"' := by
  rcases List.eq_nil_or_concat line with rfl | ⟨base, c, rfl⟩
  · simp [escapeLine_nil]
  · have hc : c ≠ '"' := fun hc => h (by rw [hc]; simp)
    rw [List.concat_eq_append, escapeLine_append _ _ (.inr (by simpa using hc))]
    by_cases hslash : c = '\\'
    · subst hslash
      simp [escapeLine_backslash, escapeLine_nil]
    · rw [escapeLine_cons hslash fun hquote => absurd hquote hc]
      simpa [escapeLine_nil] using hc

/-- A quote at the end of a line is escaped when it is the third one. -/
theorem escapeLine_quote (h : lastQuotes line % 3 ≠ 2) :
    escapeLine (line ++ ['"']) = escapeLine line ++ ['"'] := by
  obtain ⟨a, hdvd, hline⟩ := lastQuotes_cases line
  have hcases : lastQuotes line % 3 = 0 ∨ lastQuotes line % 3 = 1 := by omega
  rcases hcases with hr | hr <;> rw [hr] at hline <;> rw [hline]
  · rw [List.replicate_zero, List.append_nil, escapeLine_append_of_dvd hdvd]
    rfl
  · rw [List.append_assoc, escapeLine_append_of_dvd hdvd, escapeLine_append_of_dvd hdvd,
      List.append_assoc]
    rfl

/-- The quotes at the end of a line on its own are escaped three by three, and there are some. -/
def EndsEscaped (line : List Char) : Prop := lastQuotes line ≠ 0 ∧ 3 ∣ lastQuotes line

/-- A line on its own is read back if no escaped quote ends it. -/
theorem literalText?_guarded (h : ¬ EndsEscaped line) :
    literalText? (guardLastQuote (escapeLine line) ++ tripleQuote) = some (line, []) := by
  cases hn : lastQuotes line with
  | zero =>
    obtain ⟨base, hbase, hline⟩ := lastQuotes_split line
    rw [hn, List.replicate_zero, List.append_nil] at hline
    subst hline
    rw [guardLastQuote_of_last (last_escapeLine hbase), literalText?_escapeLine _ _ (.inl hbase)]
    simp [tripleQuote, literalText?, behind]
  | succ n =>
    obtain ⟨rest, rfl, hrest⟩ := exists_of_lastQuotes hn
    have hsingle : lastQuotes rest % 3 ≠ 2 := by
      unfold EndsEscaped at h
      omega
    rw [escapeLine_quote hsingle, guardLastQuote_quote, List.append_assoc,
      literalText?_escapeLine _ _ (.inr (by decide))]
    simp [tripleQuote, literalText?, behind]

/-- The guard takes the escape of the last quote away: the literal ends one quote early, and a backslash
    stands in the place of the quote. -/
theorem literalText?_unguarded (h : EndsEscaped line) : ∃ text, line = text ++ ['"'] ∧
    literalText? (guardLastQuote (escapeLine line) ++ tripleQuote) = some (text ++ ['\\'], ['"']) := by
  obtain ⟨hne, k, hk⟩ := h
  have hthree : lastQuotes line = 3 * (k - 1) + 2 + 1 := by omega
  obtain ⟨two, rfl, htwo⟩ := exists_of_lastQuotes hthree
  obtain ⟨one, rfl, hone⟩ := exists_of_lastQuotes htwo
  obtain ⟨rest, rfl, hrest⟩ := exists_of_lastQuotes hone
  have hescape : escapeLine (rest ++ ['"', '"', '"'])
      = escapeLine rest ++ ['\\', '"', '\\', '"', '\\'] ++ ['"'] := by
    rw [escapeLine_append_of_dvd ⟨k - 1, hrest⟩, List.append_assoc]
    rfl
  refine ⟨rest ++ ['"', '"'], by simp, ?_⟩
  rw [List.append_assoc, List.append_assoc]
  show literalText? (guardLastQuote (escapeLine (rest ++ ['"', '"', '"'])) ++ tripleQuote) = _
  rw [hescape, guardLastQuote_quote, List.append_assoc, List.append_assoc,
    literalText?_escapeLine _ _ (.inr (by decide))]
  simp [tripleQuote, literalText?, behind]

end Docsmith.Doc
