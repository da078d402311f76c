import Docsmith.Proofs.Text.Fill
import Mathlib.Data.List.Basic

namespace Docsmith.Text

/-!
# The paragraphs of a text

A text is made of paragraphs and of white space around and between them, with two line feeds or more wherever
two paragraphs meet.  There is one way only to take it apart like this, and cutting the text at its paragraph
breaks gives the words of these paragraphs.

* `wordsOf_append`, `wordsOf_gap`, `wordsOf_word`: the words of a text and of its parts.
* `Paragraph`: a text without white space at its ends and without blank lines.
* `Parted`: a text and its paragraphs; `exists_parted`: every text has paragraphs, `Parted.unique`: and no others.
* `Parted.words`: the words of a text are those of its paragraphs.
* `paragraphWords_eq`: they are found when the text is cut.
-/

variable {u v w cs gap p q rest acc : List Char} {ps : List (List Char)} {c : Char} {fuel : Nat}

/-! ### Words -/

/-- White space ends a word. -/
theorem wordsFrom_append (hc : isBlank c = true) (acc u v : List Char) :
    wordsFrom acc (u ++ c :: v) = wordsFrom acc u ++ wordsOf v := by
  fun_induction wordsFrom acc u with
  | case1 => simp [wordsFrom, hc, wordsOf]
  | case2 a acc => simp [wordsFrom, hc, wordsOf]
  | case3 d rest hd ih => simp [wordsFrom, hd, ih]
  | case4 d rest hd a acc ih => simp [wordsFrom, hd, ih]
  | case5 acc d rest hd ih => rw [List.cons_append, wordsFrom.eq_def]; simp [hd, ih]

/-- White space has no words. -/
theorem wordsOf_gap (hgap : ∀ c ∈ gap, isBlank c = true) : wordsOf gap = [] := by
  induction gap with
  | nil => rfl
  | cons c rest ih =>
    obtain ⟨hc, hrest⟩ := List.forall_mem_cons.mp hgap
    rw [wordsOf, ← List.nil_append (c :: rest), wordsFrom_append hc, ih hrest]
    rfl

/-- **The words of two texts** with white space between them. -/
theorem wordsOf_append (hgap : ∀ c ∈ gap, isBlank c = true) (hne : gap ≠ []) (u v : List Char) :
    wordsOf (u ++ gap ++ v) = wordsOf u ++ wordsOf v := by
  obtain ⟨c, rest, rfl⟩ := List.exists_cons_of_ne_nil hne
  obtain ⟨hc, hrest⟩ := List.forall_mem_cons.mp hgap
  rw [List.append_assoc, List.cons_append, wordsOf, wordsFrom_append hc]
  congr 1
  clear hgap hne
  induction rest with
  | nil => rfl
  | cons d rest ih =>
    obtain ⟨hd, hrest⟩ := List.forall_mem_cons.mp hrest
    rw [wordsOf, List.cons_append, ← List.nil_append (d :: _), wordsFrom_append hd, ih hrest]
    rfl

/-- White space before a text adds no words. -/
theorem wordsOf_gap_append (hgap : ∀ c ∈ gap, isBlank c = true) (v : List Char) :
    wordsOf (gap ++ v) = wordsOf v := by
  by_cases hne : gap = []
  · rw [hne, List.nil_append]
  · simpa [wordsOf, wordsFrom] using wordsOf_append hgap hne [] v

/-- White space behind a text adds no words. -/
theorem wordsOf_append_gap (hgap : ∀ c ∈ gap, isBlank c = true) (u : List Char) :
    wordsOf (u ++ gap) = wordsOf u := by
  by_cases hne : gap = []
  · rw [hne, List.append_nil]
  · simpa [wordsOf, wordsFrom] using wordsOf_append hgap hne u []

/-- A text without white space is a word. -/
theorem wordsOf_word (hne : w ≠ []) (hw : ∀ c ∈ w, isBlank c = false) : wordsOf w = [w] := by
  have hfrom (acc w : List Char) (hw : ∀ c ∈ w, isBlank c = false) (hne : acc ≠ [] ∨ w ≠ []) :
      wordsFrom acc w = [acc.reverse ++ w] := by
    induction w generalizing acc with
    | nil =>
      cases acc with
      | nil => simp at hne
      | cons a acc => simp [wordsFrom]
    | cons c rest ih =>
      obtain ⟨hc, hrest⟩ := List.forall_mem_cons.mp hw
      rw [wordsFrom.eq_def]
      simp [hc, ih (c :: acc) hrest (.inl (by simp))]
  exact hfrom [] w hw (.inr hne)

/-- The words of a text are not empty and have no white space. -/
theorem wordsOf_of_mem (hw : w ∈ wordsOf cs) : wordsOf w = [w] := by
  have hne (acc cs : List Char) : ∀ w ∈ wordsFrom acc cs, w ≠ [] := by
    fun_induction wordsFrom acc cs with
    | case1 => simp
    | case2 a acc => simp
    | case3 d rest hd ih => exact ih
    | case4 d rest hd a acc ih => simpa using ih
    | case5 acc d rest hd ih => exact ih
  exact wordsOf_word (hne [] cs w hw) fun c hc => (mem_wordsOf_iff.mp ⟨w, hw, hc⟩).2

/-- A text has words unless it is blank. -/
theorem wordsOf_ne_nil (hc : c ∈ cs) (hdark : isBlank c = false) : wordsOf cs ≠ [] := by
  obtain ⟨w, hw, -⟩ := mem_wordsOf_iff.mpr ⟨hc, hdark⟩
  exact List.ne_nil_of_mem hw

/-! ### Paragraphs -/

/-- The text begins and ends with what is not blank, and no white space in it has two line feeds. -/
structure Paragraph (p : List Char) : Prop where
  first : ∃ c ∈ p.head?, isBlank c = false
  last : ∃ c ∈ p.getLast?, isBlank c = false
  unbroken : ∀ gap, gap <:+: p → (∀ c ∈ gap, isBlank c = true) → gap.count '\n' < 2

/-- What is taken out of a text without a certain letter lies before or behind it. -/
theorem infix_of_not_mem (h : w <:+: u ++ c :: v) (hc : c ∉ w) : w <:+: u ∨ w <:+: v := by
  obtain ⟨before, after, heq⟩ := h
  rcases List.append_eq_append_iff.mp heq with ⟨x, rfl, rfl⟩ | ⟨x, hbefore, hafter⟩
  · exact .inl ⟨before, x, rfl⟩
  · rcases List.cons_eq_append_iff.mp hafter with ⟨rfl, -⟩ | ⟨x, rfl, rfl⟩
    · rw [List.append_nil] at hbefore
      exact .inl ⟨before, [], by rw [List.append_nil, hbefore]⟩
    · rcases List.append_eq_append_iff.mp hbefore with ⟨y, rfl, rfl⟩ | ⟨y, rfl, hy⟩
      · exact absurd (List.mem_append_right y List.mem_cons_self) hc
      · rcases List.cons_eq_append_iff.mp hy with ⟨rfl, rfl⟩ | ⟨y, rfl, rfl⟩
        · exact absurd List.mem_cons_self hc
        · exact .inr ⟨y, after, by simp⟩

/-- A text without white space is a paragraph. -/
theorem paragraph_word (hne : w ≠ []) (hw : ∀ c ∈ w, isBlank c = false) : Paragraph w where
  first := ⟨w.head hne, List.head?_eq_some_head hne, hw _ (List.head_mem hne)⟩
  last := ⟨w.getLast hne, List.getLast?_eq_some_getLast hne, hw _ (List.getLast_mem hne)⟩
  unbroken gap hin hblank := by
    have hempty : gap = [] := List.eq_nil_iff_forall_not_mem.mpr fun c hc => by
      have hdark := hw c (hin.subset hc)
      rw [hblank c hc] at hdark
      cases hdark
    rw [hempty]
    decide

/-- **Two paragraphs become one** if there are not two line feeds between them. -/
theorem Paragraph.append (hp : Paragraph p) (hq : Paragraph q) (hnarrow : gap.count '\n' < 2) :
    Paragraph (p ++ gap ++ q) where
  first := by
    obtain ⟨c, hc, hdark⟩ := hp.first
    exact ⟨c, by simp [List.head?_append, Option.mem_def.mp hc], hdark⟩
  last := by
    obtain ⟨c, hc, hdark⟩ := hq.last
    exact ⟨c, by simp [List.getLast?_append, Option.mem_def.mp hc], hdark⟩
  unbroken x hin hx := by
    obtain ⟨c, hc, hdark⟩ := hp.last
    obtain ⟨d, hd, hdark'⟩ := hq.first
    obtain ⟨p', rfl⟩ := List.getLast?_eq_some_iff.mp (Option.mem_def.mp hc)
    obtain ⟨q', rfl⟩ := List.head?_eq_some_iff.mp (Option.mem_def.mp hd)
    have hout {c : Char} (hdark : isBlank c = false) : c ∉ x := fun hmem => by
      rw [hx c hmem] at hdark
      cases hdark
    -- white space is in one of the three, for their ends are not blank
    have hsplit : p' ++ [c] ++ gap ++ d :: q' = p' ++ c :: (gap ++ d :: q') := by simp
    rw [hsplit] at hin
    rcases infix_of_not_mem hin (hout hdark) with hin | hin
    · exact hp.unbroken x (hin.trans (List.prefix_append p' [c]).isInfix) hx
    · rcases infix_of_not_mem hin (hout hdark') with hin | hin
      · exact Nat.lt_of_le_of_lt (hin.sublist.count_le '\n') hnarrow
      · exact hq.unbroken x (hin.trans (List.suffix_cons d q').isInfix) hx

/-- The text is made of the paragraphs and of white space, with two line feeds or more between two of them. -/
inductive Parted : List Char → List (List Char) → Prop where
  | nil {gap : List Char} (hgap : ∀ c ∈ gap, isBlank c = true) : Parted gap []
  | cons {gap p rest : List Char} {ps : List (List Char)} (hgap : ∀ c ∈ gap, isBlank c = true)
      (hp : Paragraph p) (hrest : Parted rest ps)
      (hwide : ps ≠ [] → 2 ≤ (rest.takeWhile isBlank).count '\n') : Parted (gap ++ p ++ rest) (p :: ps)

/-- A text may begin with its first paragraph. -/
theorem Parted.start (hp : Paragraph p) (hrest : Parted rest ps)
    (hwide : ps ≠ [] → 2 ≤ (rest.takeWhile isBlank).count '\n') : Parted (p ++ rest) (p :: ps) := by
  have hparted : Parted ([] ++ p ++ rest) (p :: ps) := .cons (by simp) hp hrest hwide
  rwa [List.nil_append] at hparted

/-- A text is white space, or it begins with a paragraph. -/
theorem Parted.cases_text (h : Parted cs ps) : (ps = [] ∧ ∀ c ∈ cs, isBlank c = true) ∨
    ∃ gap p rest ps', ps = p :: ps' ∧ cs = gap ++ (p ++ rest) ∧ (∀ c ∈ gap, isBlank c = true) ∧ Paragraph p ∧
      Parted rest ps' ∧ (ps' ≠ [] → 2 ≤ (rest.takeWhile isBlank).count '\n') := by
  cases h with
  | nil hgap => exact .inl ⟨rfl, hgap⟩
  | cons hgap hp hrest hwide => exact .inr ⟨_, _, _, _, rfl, List.append_assoc .., hgap, hp, hrest, hwide⟩

/-- White space is what is taken before the first letter that is not blank. -/
theorem takeWhile_gap (hgap : ∀ c ∈ gap, isBlank c = true) (hv : ∀ c ∈ v.head?, isBlank c = false) :
    (gap ++ v).takeWhile isBlank = gap := by
  rw [List.takeWhile_append_of_pos hgap]
  cases v with
  | nil => simp
  | cons c v => simp [hv c rfl]

/-- White space is what is dropped before the first letter that is not blank. -/
theorem dropWhile_gap (hgap : ∀ c ∈ gap, isBlank c = true) (hv : ∀ c ∈ v.head?, isBlank c = false) :
    (gap ++ v).dropWhile isBlank = v := by
  rw [List.dropWhile_append_of_pos hgap]
  cases v with
  | nil => rfl
  | cons c v => rw [List.dropWhile_cons_of_neg (by simp [hv c rfl])]

/-- A paragraph begins with what is not blank, whatever follows. -/
theorem Paragraph.head?_append (hp : Paragraph p) (rest : List Char) :
    ∀ c ∈ (p ++ rest).head?, isBlank c = false := by
  obtain ⟨c, hc, hdark⟩ := hp.first
  rw [List.head?_append, Option.mem_def.mp hc]
  rintro _ ⟨⟩
  exact hdark

/-- **Every text has paragraphs.** -/
theorem exists_parted (cs : List Char) : ∃ ps, Parted cs ps := by
  induction cs with
  | nil => exact ⟨[], .nil (by simp)⟩
  | cons c rest ih =>
    obtain ⟨ps, h⟩ := ih
    cases hc : isBlank c with
    | true =>
      refine ⟨ps, ?_⟩
      cases h with
      | nil hgap => exact .nil (List.forall_mem_cons.mpr ⟨hc, hgap⟩)
      | @cons gap p rest ps hgap hp hrest hwide =>
        have hblank : ∀ d ∈ c :: gap, isBlank d = true := List.forall_mem_cons.mpr ⟨hc, hgap⟩
        exact Parted.cons hblank hp hrest hwide
    | false =>
      have hself : Paragraph [c] := paragraph_word (by simp) (by simpa using hc)
      cases h with
      | nil hgap => exact ⟨[[c]], .start hself (.nil hgap) (by simp)⟩
      | @cons gap p rest ps hgap hp hrest hwide =>
        -- the letter joins the paragraph after it, unless they are apart
        by_cases hnarrow : gap.count '\n' < 2
        · refine ⟨([c] ++ gap ++ p) :: ps, ?_⟩
          have hparted : Parted ([c] ++ gap ++ p ++ rest) (([c] ++ gap ++ p) :: ps) :=
            .start (hself.append hp hnarrow) hrest hwide
          simpa using hparted
        · refine ⟨[c] :: p :: ps, .start hself (.cons hgap hp hrest hwide) fun _ => ?_⟩
          show 2 ≤ ((gap ++ p ++ rest).takeWhile isBlank).count '\n'
          rw [List.append_assoc, takeWhile_gap hgap (hp.head?_append rest)]
          omega

/-- White space comes after a paragraph. -/
theorem Parted.head?_blank (h : Parted rest ps) (hwide : ps ≠ [] → 2 ≤ (rest.takeWhile isBlank).count '\n') :
    ∀ c ∈ rest.head?, isBlank c = true := by
  intro c hc
  obtain ⟨more, rfl⟩ := List.head?_eq_some_iff.mp (Option.mem_def.mp hc)
  rcases h.cases_text with ⟨-, hall⟩ | ⟨_, p, _, ps', rfl, -⟩
  · exact hall c List.mem_cons_self
  · cases hblank : isBlank c with
    | true => rfl
    | false =>
      have hcount := hwide (by simp)
      rw [List.takeWhile_cons_of_neg (by simp [hblank])] at hcount
      exact absurd hcount (by simp)

/-- **The words of a text are those of its paragraphs.** -/
theorem Parted.words (h : Parted cs ps) : wordsOf cs = ps.flatMap wordsOf := by
  induction h with
  | nil hgap => exact wordsOf_gap hgap
  | @cons gap p rest ps hgap hp hrest hwide ih =>
    rw [List.flatMap_cons, ← ih, List.append_assoc, wordsOf_gap_append hgap]
    have hblank := hrest.head?_blank hwide
    cases rest with
    | nil => simp [wordsOf, wordsFrom]
    | cons c rest =>
      have hc : ∀ d ∈ [c], isBlank d = true := by simpa using hblank c rfl
      have hsplit : p ++ c :: rest = p ++ [c] ++ rest := by simp
      rw [hsplit, wordsOf_append hc (by simp), ← wordsOf_gap_append hc rest, List.singleton_append]

/-- White space in a text ends before a letter that is not blank. -/
theorem takeWhile_prefix (hc : isBlank c = false) (u v : List Char) : (u ++ c :: v).takeWhile isBlank <+: u := by
  induction u with
  | nil => simp [hc]
  | cons a u ih =>
    rw [List.cons_append, List.takeWhile_cons]
    split
    · exact (List.prefix_cons_inj a).mpr ih
    · exact List.nil_prefix

/-- **There is no blank line in a paragraph**, whatever follows. -/
theorem Paragraph.narrow (hp : Paragraph p) (hu : u <:+ p) (hne : u ≠ []) (v : List Char) :
    ((u ++ v).takeWhile isBlank).count '\n' < 2 := by
  obtain ⟨c, hc, hdark⟩ := hp.last
  obtain ⟨before, rfl⟩ := hu
  obtain ⟨u', d, rfl⟩ := (List.eq_nil_or_concat' u).resolve_left hne
  obtain rfl : d = c := by simpa using hc
  have hstart : (u' ++ [d] ++ v).takeWhile isBlank <+: u' := by
    rw [List.append_assoc]
    exact takeWhile_prefix hdark u' v
  refine hp.unbroken _ (hstart.isInfix.trans ⟨before, [d], by simp⟩) ?_
  exact List.all_eq_true.mp List.all_takeWhile

/-- A paragraph does not go on where another one that begins like it ends. -/
theorem Paragraph.eq_nil_of_append (hp : Paragraph (p ++ u)) (h : Parted (u ++ rest) ps)
    (hwide : ps ≠ [] → 2 ≤ ((u ++ rest).takeWhile isBlank).count '\n') : u = [] := by
  rcases List.eq_nil_or_concat' u with hnil | ⟨u, c, rfl⟩
  · exact hnil
  obtain ⟨d, hd, hdark⟩ := hp.last
  have hcd : c = d := by simpa using hd
  have hnarrow := hp.narrow (List.suffix_append p _) (by simp) rest
  rcases h.cases_text with ⟨-, hall⟩ | ⟨_, _, _, _, rfl, -⟩
  · rw [← hcd, hall c (by simp)] at hdark
    cases hdark
  · have := hwide (by simp)
    omega

/-- **A text has no other paragraphs.** -/
theorem Parted.unique {ps' : List (List Char)} (h : Parted cs ps) (h' : Parted cs ps') : ps = ps' := by
  induction h generalizing ps' with
  | @nil gap hgap =>
    rcases h'.cases_text with ⟨rfl, -⟩ | ⟨_, p, rest, _, -, rfl, -, hp, -⟩
    · rfl
    · obtain ⟨c, hc, hdark⟩ := hp.first
      have hmem : c ∈ p := List.mem_of_mem_head? hc
      rw [hgap c (by simp [hmem])] at hdark
      cases hdark
  | @cons gap p rest ps hgap hp hrest hwide ih =>
    rw [List.append_assoc] at h'
    rcases h'.cases_text with ⟨-, hall⟩ | ⟨gap', q, rest', qs, rfl, heq, hgap', hq, hrest', hwide'⟩
    · obtain ⟨c, hc, hdark⟩ := hp.first
      have hmem : c ∈ p := List.mem_of_mem_head? hc
      rw [hall c (by simp [hmem])] at hdark
      cases hdark
    · have hsame : p ++ rest = q ++ rest' := by
        rw [← dropWhile_gap hgap (hp.head?_append rest), heq, dropWhile_gap hgap' (hq.head?_append rest')]
      -- the first paragraphs are the same, for neither goes on behind the other
      rcases List.append_eq_append_iff.mp hsame with ⟨x, rfl, rfl⟩ | ⟨x, rfl, rfl⟩
      · obtain rfl := hq.eq_nil_of_append hrest hwide
        rw [List.append_nil, ih hrest']
      · obtain rfl := hp.eq_nil_of_append hrest' hwide'
        rw [List.append_nil, ih hrest']

/-! ### Cutting a text -/

/-- More white space before a text changes nothing. -/
theorem Parted.gap_append (hgap : ∀ c ∈ gap, isBlank c = true) (h : Parted cs ps) : Parted (gap ++ cs) ps := by
  have hboth {gap' : List Char} (hgap' : ∀ c ∈ gap', isBlank c = true) : ∀ c ∈ gap ++ gap', isBlank c = true :=
    fun c hc => (List.mem_append.mp hc).elim (hgap c) (hgap' c)
  cases h with
  | nil hgap' => exact .nil (hboth hgap')
  | cons hgap' hp hrest hwide =>
    rw [← List.append_assoc, ← List.append_assoc]
    exact .cons (hboth hgap') hp hrest hwide

/-- White space before a text has no part in its paragraphs. -/
theorem Parted.of_gap_append (hgap : ∀ c ∈ gap, isBlank c = true) (h : Parted (gap ++ cs) ps) : Parted cs ps := by
  rcases h.cases_text with ⟨rfl, hall⟩ | ⟨gap', p, rest, ps', rfl, heq, hgap', hp, hrest, hwide⟩
  · exact .nil fun c hc => hall c (List.mem_append_right _ hc)
  · -- the white space is part of that before the first paragraph
    have htake : gap ++ cs.takeWhile isBlank = gap' := by
      rw [← List.takeWhile_append_of_pos hgap, heq, takeWhile_gap hgap' (hp.head?_append rest)]
    rw [← htake, List.append_assoc] at heq
    rw [List.append_cancel_left heq, ← List.append_assoc]
    refine .cons (fun c hc => hgap' c ?_) hp hrest hwide
    rw [← htake]
    exact List.mem_append_right _ hc

/-- White space behind a text has no part in its paragraphs. -/
theorem Parted.of_append_gap (hgap : ∀ c ∈ gap, isBlank c = true) (h : Parted (cs ++ gap) ps) : Parted cs ps := by
  generalize htext : cs ++ gap = text at h
  induction h generalizing cs with
  | nil hall =>
    subst htext
    exact .nil fun c hc => hall c (List.mem_append_left _ hc)
  | @cons gap' p rest ps hgap' hp hrest hwide ih =>
    -- the last letter of the paragraph is not in the white space
    obtain ⟨x, rfl, rfl⟩ : ∃ x, cs = gap' ++ p ++ x ∧ rest = x ++ gap := by
      rcases List.append_eq_append_iff.mp htext with ⟨x, hp', rfl⟩ | ⟨x, rfl, rfl⟩
      · obtain ⟨c, hc, hdark⟩ := hp.last
        rcases List.eq_nil_or_concat' x with rfl | ⟨x, d, rfl⟩
        · exact ⟨[], by simpa using hp'.symm, by simp⟩
        · have hlast : (gap' ++ p).getLast? = some d := by rw [hp']; simp
          rw [List.getLast?_append, Option.mem_def.mp hc] at hlast
          obtain rfl : c = d := by simpa using hlast
          rw [hgap c (by simp)] at hdark
          cases hdark
      · exact ⟨x, rfl, rfl⟩
    have hx := ih rfl
    refine .cons hgap' hp hx fun hps => ?_
    have hcount := hwide hps
    rcases hx.cases_text with ⟨rfl, -⟩ | ⟨gap'', q, rest, _, -, rfl, hgap'', hq, -⟩
    · exact absurd rfl hps
    · rw [takeWhile_gap hgap'' (hq.head?_append rest)]
      rwa [List.append_assoc, List.append_assoc, takeWhile_gap hgap'' (hq.head?_append (rest ++ gap))] at hcount

/-- Trimming a text takes white space from its ends. -/
theorem trimChars_split (cs : List Char) : ∃ before after, cs = before ++ (trimChars cs ++ after) ∧
    (∀ c ∈ before, isBlank c = true) ∧ ∀ c ∈ after, isBlank c = true := by
  refine ⟨cs.takeWhile isBlank, ((trimLeftChars cs).reverse.takeWhile isBlank).reverse, ?_, ?_, ?_⟩
  · have hright : trimChars cs ++ ((trimLeftChars cs).reverse.takeWhile isBlank).reverse = trimLeftChars cs := by
      rw [trimChars, trimRightChars, ← List.reverse_append, List.takeWhile_append_dropWhile, List.reverse_reverse]
    rw [hright]
    exact List.takeWhile_append_dropWhile.symm
  · exact List.all_eq_true.mp List.all_takeWhile
  · exact fun c hc => List.all_eq_true.mp List.all_takeWhile c (List.mem_reverse.mp hc)

/-- Trimming a text keeps its paragraphs. -/
theorem Parted.trim (h : Parted cs ps) : Parted (trimChars cs) ps := by
  obtain ⟨before, after, hsplit, hbefore, hafter⟩ := trimChars_split cs
  rw [hsplit] at h
  exact (h.of_gap_append hbefore).of_append_gap hafter

/-- There is no break where less than two line feeds follow before the next letter that is not blank. -/
theorem afterBreak?_narrow (h : (cs.takeWhile isBlank).count '\n' < 2) : afterBreak? cs = none := by
  unfold afterBreak?
  split
  · rename_i rest
    dsimp only
    rw [if_neg]
    rw [List.takeWhile_cons_of_pos (by decide), List.count_cons_self] at h
    have hnone : (rest.takeWhile isBlank).count '\n' = 0 := by omega
    simpa using List.count_eq_zero.mp hnone
  · rfl

/-- There is a break at a line feed if another one follows in the white space. -/
theorem afterBreak?_wide (hgap : ∀ c ∈ gap, isBlank c = true) (hfeed : '\n' ∈ gap)
    (hv : ∀ c ∈ v.head?, isBlank c = false) :
    ∃ kept, kept <:+ gap ∧ '\n' ∉ kept ∧ afterBreak? ('\n' :: (gap ++ v)) = some (kept ++ v) := by
  refine ⟨(gap.reverse.takeWhile (· != '\n')).reverse, ?_, fun hmem => ?_, ?_⟩
  · rw [← List.reverse_prefix, List.reverse_reverse]
    exact List.takeWhile_prefix _
  · have := List.all_eq_true.mp List.all_takeWhile _ (List.mem_reverse.mp hmem)
    simp at this
  · rw [afterBreak?]
    dsimp only
    rw [takeWhile_gap hgap hv, dropWhile_gap hgap hv, if_pos (by simpa using hfeed)]

/-- A text is not cut where there is no break. -/
theorem chunksFrom_append (h : ∀ s, s ≠ [] → s <:+ u → afterBreak? (s ++ v) = none)
    (hfuel : (u ++ v).length < fuel) (acc : List Char) :
    ∃ fuel', v.length < fuel' ∧ chunksFrom fuel acc (u ++ v) = chunksFrom fuel' (u.reverse ++ acc) v := by
  induction u generalizing fuel acc with
  | nil => exact ⟨fuel, hfuel, rfl⟩
  | cons c u ih =>
    obtain ⟨fuel, rfl⟩ := Nat.exists_eq_add_one_of_ne_zero (Nat.ne_of_gt (Nat.zero_lt_of_lt hfuel))
    have hrest : (u ++ v).length < fuel := by simpa using hfuel
    obtain ⟨fuel', hfuel', heq⟩ := ih (fun s hne hs => h s hne (hs.trans (List.suffix_cons c u))) hrest (c :: acc)
    refine ⟨fuel', hfuel', ?_⟩
    have hnone : afterBreak? (c :: (u ++ v)) = none := h (c :: u) (by simp) (List.suffix_refl _)
    rw [List.cons_append, chunksFrom, hnone]
    simpa using heq

/-- White space with less than two line feeds is not cut. -/
theorem chunksFrom_narrow (hgap : ∀ c ∈ gap, isBlank c = true) (hnarrow : gap.count '\n' < 2)
    (hv : ∀ c ∈ v.head?, isBlank c = false) (hfuel : (gap ++ v).length < fuel) (acc : List Char) :
    ∃ fuel', v.length < fuel' ∧ chunksFrom fuel acc (gap ++ v) = chunksFrom fuel' (gap.reverse ++ acc) v := by
  refine chunksFrom_append (fun s _ hs => afterBreak?_narrow ?_) hfuel acc
  rw [takeWhile_gap (fun c hc => hgap c (hs.subset hc)) hv]
  exact Nat.lt_of_le_of_lt (hs.sublist.count_le '\n') hnarrow

/-- White space with two line feeds or more is cut once. -/
theorem chunksFrom_wide (hgap : ∀ c ∈ gap, isBlank c = true) (hwide : 2 ≤ gap.count '\n')
    (hv : ∀ c ∈ v.head?, isBlank c = false) (hfuel : (gap ++ v).length < fuel) (acc : List Char) :
    ∃ (fuel' : Nat) (before after : List Char), v.length < fuel' ∧ (∀ c ∈ before, isBlank c = true) ∧
      (∀ c ∈ after, isBlank c = true) ∧
      chunksFrom fuel acc (gap ++ v) = (acc.reverse ++ before) :: chunksFrom fuel' after.reverse v := by
  -- the first line feed, and another one behind it
  obtain ⟨before, gap, rfl, hfirst⟩ :=
    List.eq_append_cons_of_mem (List.count_pos_iff.mp (by omega : 0 < gap.count '\n'))
  have hfeed : '\n' ∈ gap := by
    rw [List.count_append, List.count_cons_self, List.count_eq_zero.mpr hfirst] at hwide
    exact List.count_pos_iff.mp (by omega)
  have hbefore : ∀ c ∈ before, isBlank c = true := fun c hc => hgap c (List.mem_append_left _ hc)
  have hlater : ∀ c ∈ gap, isBlank c = true := fun c hc => hgap c (by simp [hc])
  obtain ⟨after, hsuffix, hnone, hbreak⟩ := afterBreak?_wide hlater hfeed hv
  have hafter : ∀ c ∈ after, isBlank c = true := fun c hc => hlater c (hsuffix.subset hc)
  rw [List.append_assoc, List.cons_append] at hfuel ⊢
  have huncut : ∀ s, s ≠ [] → s <:+ before → afterBreak? (s ++ '\n' :: (gap ++ v)) = none := by
    intro s hne hs
    obtain ⟨c, s, rfl⟩ := List.exists_cons_of_ne_nil hne
    have hc : c ≠ '\n' := fun heq => hfirst (heq ▸ hs.subset List.mem_cons_self)
    rw [List.cons_append, afterBreak?]
    exact fun rest heq => hc (List.cons.inj heq).1
  obtain ⟨fuel, hfuel, hto⟩ := chunksFrom_append huncut hfuel acc
  obtain ⟨fuel, rfl⟩ := Nat.exists_eq_add_one_of_ne_zero (Nat.ne_of_gt (Nat.zero_lt_of_lt hfuel))
  have hkept : (after ++ v).length < fuel := by
    have hle := hsuffix.length_le
    simp only [List.length_cons, List.length_append] at hfuel ⊢
    omega
  have hzero : after.count '\n' < 2 := by
    rw [List.count_eq_zero.mpr hnone]
    decide
  obtain ⟨fuel', hfuel', hkept⟩ := chunksFrom_narrow hafter hzero hv hkept []
  refine ⟨fuel', before, after, hfuel', hbefore, hafter, ?_⟩
  rw [hto, chunksFrom, hbreak]
  dsimp only
  rw [hkept, List.append_nil, List.reverse_append, List.reverse_reverse]

/-- A paragraph is not cut. -/
theorem chunksFrom_paragraph (hp : Paragraph p) (hfuel : (p ++ rest).length < fuel) (acc : List Char) :
    ∃ fuel', rest.length < fuel' ∧ chunksFrom fuel acc (p ++ rest) = chunksFrom fuel' (p.reverse ++ acc) rest :=
  chunksFrom_append (fun _ hne hs => afterBreak?_narrow (hp.narrow hs hne rest)) hfuel acc

/-- The pieces of a text have the words of its paragraphs, after those of what is under way before. -/
theorem chunksFrom_words (h : Parted cs ps) (hfuel : cs.length < fuel)
    (hacc : (∀ c ∈ acc, isBlank c = true) ∨ (ps ≠ [] → 2 ≤ (cs.takeWhile isBlank).count '\n')) :
    ((chunksFrom fuel acc cs).map wordsOf).filter (!·.isEmpty)
      = [wordsOf acc.reverse].filter (!·.isEmpty) ++ ps.map wordsOf := by
  have hlast {fuel : Nat} (acc : List Char) (hfuel : 0 < fuel) : chunksFrom fuel acc [] = [acc.reverse] := by
    obtain ⟨fuel, rfl⟩ := Nat.exists_eq_add_one_of_ne_zero (Nat.ne_of_gt hfuel)
    rfl
  induction h generalizing fuel acc with
  | @nil gap hgap =>
    have hnone : ∀ c ∈ ([] : List Char).head?, isBlank c = false := by simp
    rw [← List.append_nil gap] at hfuel ⊢
    by_cases hwide : 2 ≤ gap.count '\n'
    · obtain ⟨fuel', before, after, hfuel', hbefore, hafter, heq⟩ := chunksFrom_wide hgap hwide hnone hfuel acc
      rw [heq, hlast _ hfuel', List.reverse_reverse]
      simp [wordsOf_append_gap hbefore, wordsOf_gap hafter, List.filter_cons]
    · obtain ⟨fuel', hfuel', heq⟩ := chunksFrom_narrow hgap (by omega) hnone hfuel acc
      rw [heq, hlast _ hfuel', List.reverse_append, List.reverse_reverse]
      simp [wordsOf_append_gap hgap]
  | @cons gap p rest ps hgap hp hrest hwide' ih =>
    rw [List.append_assoc] at hfuel hacc ⊢
    have hdark := hp.head?_append rest
    obtain ⟨c, hc, hdark'⟩ := hp.first
    have hwords : wordsOf p ≠ [] := wordsOf_ne_nil (List.mem_of_mem_head? hc) hdark'
    -- the paragraph is a piece of its own, with the white space that is left before it
    have hpiece {fuel : Nat} {acc : List Char} (hacc : ∀ c ∈ acc, isBlank c = true)
        (hfuel : (p ++ rest).length < fuel) : ((chunksFrom fuel acc (p ++ rest)).map wordsOf).filter (!·.isEmpty)
          = wordsOf p :: ps.map wordsOf := by
      obtain ⟨fuel', hfuel', heq⟩ := chunksFrom_paragraph hp hfuel acc
      have hreverse : ∀ c ∈ acc.reverse, isBlank c = true := fun c hc => hacc c (List.mem_reverse.mp hc)
      rw [heq, ih hfuel' (.inr hwide'), List.reverse_append, List.reverse_reverse, wordsOf_gap_append hreverse]
      simp [hwords]
    rw [takeWhile_gap hgap hdark] at hacc
    by_cases hwide : 2 ≤ gap.count '\n'
    · obtain ⟨fuel', before, after, hfuel', hbefore, hafter, heq⟩ := chunksFrom_wide hgap hwide hdark hfuel acc
      rw [heq, List.map_cons, List.filter_cons,
        hpiece (fun c hc => hafter c (List.mem_reverse.mp hc)) hfuel', wordsOf_append_gap hbefore]
      cases hempty : (wordsOf acc.reverse).isEmpty <;> simp [hempty]
    · have hblank : ∀ c ∈ acc, isBlank c = true := hacc.resolve_right fun h => hwide (h (by simp))
      obtain ⟨fuel', hfuel', heq⟩ := chunksFrom_narrow hgap (by omega) hdark hfuel acc
      have hall : ∀ c ∈ gap.reverse ++ acc, isBlank c = true := by
        intro c hc
        rcases List.mem_append.mp hc with hc | hc
        · exact hgap c (List.mem_reverse.mp hc)
        · exact hblank c hc
      rw [heq, hpiece hall hfuel', wordsOf_gap fun c hc => hblank c (List.mem_reverse.mp hc)]
      rfl

/-- **The words of the paragraphs of a text** are found when it is cut. -/
theorem paragraphWords_eq (h : Parted cs ps) : paragraphWords cs = ps.map wordsOf := by
  rw [paragraphWords, paragraphChunks, chunksFrom_words h.trim (Nat.lt_succ_self _) (.inl (by simp))]
  rfl

end Docsmith.Text
