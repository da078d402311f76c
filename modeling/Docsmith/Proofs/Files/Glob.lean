import Docsmith.Files.Glob

namespace Docsmith.Glob

/-!
# Patterns that take whole directories

Whether a directory is passed over is asked of a single made-up name in it, an underscore.  The answer is
right for every path below the directory when the pattern does not look at what the name is: it ends in a
star behind something that is no underscore, or in something that is none.

* `Piece.mayEnd`: a text that the piece stands for may end in a character.
* `takesWhole`: the pattern does not look at the name below a directory.
* `matchPieces_underscore`, `matchFrom_underscore`: what such a pattern says of an underscore it says of
  every text in its place.
-/

/-- A text that the piece stands for may end in the character. -/
def Piece.mayEnd (c : Char) : Piece → Bool
  | star => true
  | p => p.holds c

/-- The pieces end in one that is no underscore, or in a star behind such a piece. -/
def endsFirm : List Piece → Bool
  | [] => false
  | [p] => !p.mayEnd '_'
  | [p, .star] => !p.mayEnd '_'
  | _ :: ps => endsFirm ps

/-- The pieces stand for nothing, for everything, or end in one that is no underscore. -/
def takesWholePieces : List Piece → Bool
  | [] => true
  | [.star] => true
  | ps => endsFirm ps

/-- The pattern does not look at the name below a directory, with or without a leading `**/`. -/
def takesWhole (pattern : List Char) : Bool :=
  takesWholePieces (compile pattern) &&
    match pattern with
    | '*' :: '*' :: '/' :: rest => takesWhole rest
    | _ => true

variable {p : Piece} {ps : List Piece} {c : Char} {cs base rest : List Char}

/-! ### Pieces -/

@[simp] theorem mem_suffixes {s : List Char} : s ∈ suffixes cs ↔ s <:+ cs := by
  induction cs with
  | nil => simp [suffixes]
  | cons c cs ih => rw [suffixes, List.mem_cons, ih, List.suffix_cons_iff]

/-- A star stands for what is before some end of the text. -/
theorem matchPieces_star :
    matchPieces (.star :: ps) cs = true ↔ ∃ s, s <:+ cs ∧ matchPieces ps s = true := by
  cases cs <;> simp [matchPieces]

theorem matchPieces_star_alone (cs : List Char) : matchPieces [.star] cs = true :=
  matchPieces_star.mpr ⟨[], List.nil_suffix, rfl⟩

/-- Any other piece does not stand for nothing. -/
theorem matchPieces_empty (hp : p ≠ .star) : matchPieces (p :: ps) [] = false := by
  cases p <;> simp [matchPieces] at hp ⊢

/-- Any other piece stands for one character. -/
theorem matchPieces_cons (hp : p ≠ .star) :
    matchPieces (p :: ps) (c :: cs) = (p.holds c && matchPieces ps cs) := by
  cases p <;> simp [matchPieces] at hp ⊢

theorem Piece.not_of_mayEnd (h : p.mayEnd c = false) : p ≠ .star ∧ p.holds c = false := by
  cases p with
  | star => cases h
  | any => exact ⟨nofun, h⟩
  | set negated members => exact ⟨nofun, h⟩
  | char d => exact ⟨nofun, h⟩

/-- A single character that may not end the text does not match it. -/
theorem matchPieces_single (hp : p.mayEnd c = false) : matchPieces (p :: ps) [c] = false := by
  obtain ⟨hstar, hholds⟩ := Piece.not_of_mayEnd hp
  rw [matchPieces_cons hstar, hholds, Bool.false_and]

/-- What ends in a piece that is no underscore does not stand for nothing. -/
theorem matchPieces_nil (h : endsFirm ps = true) : matchPieces ps [] = false := by
  fun_induction endsFirm ps with
  | case1 => cases h
  | case2 p => exact matchPieces_empty (Piece.not_of_mayEnd (by simpa using h)).1
  | case3 p => exact matchPieces_empty (Piece.not_of_mayEnd (by simpa using h)).1
  | case4 p ps _ _ ih =>
    by_cases hp : p = .star
    · subst hp
      rw [Bool.eq_false_iff]
      intro hmatch
      obtain ⟨s, hs, hmatch⟩ := matchPieces_star.mp hmatch
      obtain rfl := List.suffix_nil.mp hs
      rw [ih h] at hmatch
      cases hmatch
    · exact matchPieces_empty hp

/-- What such pieces say of an underscore they say of every text in its place. -/
theorem matchPieces_underscore (h : endsFirm ps = true)
    (hmatch : matchPieces ps (base ++ ['_']) = true) (rest : List Char) :
    matchPieces ps (base ++ rest) = true := by
  fun_induction endsFirm ps generalizing base with
  | case1 => cases h
  | case2 p =>
    have hp : p.mayEnd '_' = false := by simpa using h
    cases base with
    | nil =>
      rw [List.nil_append, matchPieces_single hp] at hmatch
      cases hmatch
    | cons c base =>
      -- one character does not stand for two
      rw [List.cons_append, matchPieces_cons (Piece.not_of_mayEnd hp).1] at hmatch
      simp [matchPieces] at hmatch
  | case3 p =>
    have hp : p.mayEnd '_' = false := by simpa using h
    cases base with
    | nil =>
      rw [List.nil_append, matchPieces_single hp] at hmatch
      cases hmatch
    | cons c base =>
      -- the star behind the character stands for whatever follows it
      rw [List.cons_append, matchPieces_cons (Piece.not_of_mayEnd hp).1] at hmatch ⊢
      simp only [matchPieces_star_alone] at hmatch ⊢
      exact hmatch
  | case4 p ps _ _ ih =>
    by_cases hp : p = .star
    · -- the star ends before the underscore, as the pieces behind it do not stand for nothing
      subst hp
      obtain ⟨s, hs, hmatch⟩ := matchPieces_star.mp hmatch
      rcases List.suffix_concat_iff.mp hs with rfl | ⟨t, rfl, ht⟩
      · rw [matchPieces_nil h] at hmatch
        cases hmatch
      · refine matchPieces_star.mpr ⟨t ++ rest, ?_, ih h hmatch⟩
        obtain ⟨before, rfl⟩ := ht
        exact ⟨before, (List.append_assoc ..).symm⟩
    · cases base with
      | nil =>
        rw [List.nil_append, matchPieces_cons hp, matchPieces_nil h, Bool.and_false] at hmatch
        cases hmatch
      | cons c base =>
        rw [List.cons_append, matchPieces_cons hp, Bool.and_eq_true] at hmatch ⊢
        exact ⟨hmatch.1, ih h hmatch.2⟩

theorem matchPieces_of_takesWhole (h : takesWholePieces ps = true)
    (hmatch : matchPieces ps (base ++ ['_']) = true) (rest : List Char) :
    matchPieces ps (base ++ rest) = true := by
  unfold takesWholePieces at h
  split at h
  · simp [matchPieces] at hmatch
  · exact matchPieces_star_alone _
  · exact matchPieces_underscore h hmatch rest

/-! ### Patterns -/

/-- What such a pattern says of an underscore it says of every text in its place. -/
theorem matchFrom_underscore {pattern : List Char} (h : takesWhole pattern = true)
    (hmatch : matchFrom pattern (base ++ ['_']) = true) (rest : List Char) :
    matchFrom pattern (base ++ rest) = true := by
  fun_induction takesWhole pattern with
  | case1 pattern ih =>
    rw [Bool.and_eq_true] at h
    unfold matchFrom at hmatch ⊢
    rw [Bool.or_eq_true] at hmatch ⊢
    rcases hmatch with hwhole | hpeeled
    · exact .inl (matchPieces_of_takesWhole h.1 hwhole rest)
    · -- the same of what is left without a leading pair of stars
      refine .inr ?_
      split at hpeeled
      · exact ih h.2 hpeeled
      · cases hpeeled

/-- Patterns that take whole directories match every path below a directory that is passed over. -/
theorem matchesAny_below {patterns : List String}
    (h : ∀ pattern ∈ patterns, takesWhole pattern.toList = true) {dir : String}
    (hmatch : matchesAny patterns (dir ++ "/_") = true) (below : String) :
    matchesAny patterns (dir ++ "/" ++ below) = true := by
  obtain ⟨pattern, hmem, hpattern⟩ := List.any_eq_true.mp hmatch
  refine List.any_eq_true.mpr ⟨pattern, hmem, ?_⟩
  have hmade : (dir ++ "/_").toList = (dir.toList ++ ['/']) ++ ['_'] := by simp
  have hbelow : (dir ++ "/" ++ below).toList = (dir.toList ++ ['/']) ++ below.toList := by simp
  unfold matchPath at hpattern ⊢
  rw [hmade] at hpattern
  rw [hbelow]
  exact matchFrom_underscore (h pattern hmem) hpattern _

/-- The name of a directory takes it whole; a pattern of names that begin with an underscore does not. -/
example : takesWhole "**/vendor/**".toList = true ∧ takesWhole "**/_*".toList = false := by
  decide +kernel

end Docsmith.Glob
