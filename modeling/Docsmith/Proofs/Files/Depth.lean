import Docsmith.Proofs.Files.Glob

namespace Docsmith.Glob

/-!
# Patterns at any depth

A leading pair of stars with a slash stands for any number of directories, none included.  A star matches slashes
as well, so that one such pair reaches as deep as several do: what is behind some slash of the path has to match
the rest of the pattern, or the whole path has to.

* `deepen`: a pattern with such pairs before it.
* `compileFrom_eq`, `compile_deepen`: the pieces of a pattern do not depend on the bound of the reader, so that they
  are those of the pair and of the rest.
* `matchWhole_deepen`: one pair matches a text that ends in a slash.
* `Below`: a text is another one, or what stands behind a slash of it.
* `matchFrom_deepen`, `leading_stars_match_any_depth`: the pattern at any depth.
-/

variable {n m k : Nat} {body pattern text below cs rest : List Char}

/-- A pattern with some pairs of stars and a slash before it. -/
def deepen : Nat → List Char → List Char
  | 0, pattern => pattern
  | k + 1, pattern => '*' :: '*' :: '/' :: deepen k pattern

/-- The text is another one, or what stands behind a slash of it. -/
def Below (text below : List Char) : Prop :=
  below = text ∨ ∃ above, text = above ++ '/' :: below

/-! ### Pieces of a pattern -/

/-- What follows a set is shorter than the pattern from the set on. -/
theorem length_lt_of_setBody? (h : setBody? cs = some (body, rest)) : rest.length < cs.length := by
  unfold setBody? at h
  dsimp only at h
  split at h
  · rename_i lead bracket more hdrop
    cases h
    have hlength := congrArg List.length hdrop
    rw [List.length_drop, List.length_cons] at hlength
    omega
  · cases h

/-- **The bound of the reader does not matter** once it is larger than the pattern is long. -/
theorem compileFrom_eq (hn : cs.length < n) (hm : cs.length < m) :
    compileFrom n cs = compileFrom m cs := by
  -- each piece takes a character at least, so that both bounds stay large enough
  induction n generalizing m cs with
  | zero => omega
  | succ n ih =>
    cases m with
    | zero => omega
    | succ m =>
      cases cs with
      | nil => rfl
      | cons c rest =>
        have hlength : rest.length + 1 = (c :: rest).length := List.length_cons.symm
        have hrest {more : List Char} (hmore : more.length ≤ rest.length) :
            compileFrom n more = compileFrom m more := by
          apply ih
          · omega
          · omega
        have hstars : (rest.dropWhile (· == '*')).length ≤ rest.length :=
          (List.dropWhile_suffix _).length_le
        rw [compileFrom, compileFrom, hrest hstars, hrest (Nat.le_refl _)]
        cases hset : setBody? rest with
        | none => rfl
        | some found =>
          obtain ⟨body, more⟩ := found
          have hmore := length_lt_of_setBody? hset
          dsimp only
          rw [hrest (by omega)]

/-- The pieces of a pattern with a pair of stars and a slash before it. -/
theorem compile_deepen (pattern : List Char) :
    compile ('*' :: '*' :: '/' :: pattern) = .star :: .char '/' :: compile pattern := by
  show .star :: .char '/' :: compileFrom _ pattern = _
  rw [compile, compileFrom_eq (m := pattern.length + 1)]
  · show pattern.length < pattern.length + 1 + 1
    omega
  · exact Nat.lt_succ_self _

/-! ### Matching -/

/-- **One pair of stars** stands for the text up to some slash. -/
theorem matchWhole_deepen : matchWhole ('*' :: '*' :: '/' :: pattern) text = true ↔
    ∃ above below, text = above ++ '/' :: below ∧ matchWhole pattern below = true := by
  have hchar : Piece.char '/' ≠ .star := nofun
  rw [matchWhole, compile_deepen, matchPieces_star]
  constructor
  · rintro ⟨slashed, ⟨above, rfl⟩, hmatch⟩
    cases slashed with
    | nil => cases hmatch
    | cons c below =>
      rw [matchPieces_cons hchar, Bool.and_eq_true] at hmatch
      obtain ⟨hslash, hbelow⟩ := hmatch
      obtain rfl : c = '/' := by simpa [Piece.holds] using hslash
      exact ⟨above, below, rfl, hbelow⟩
  · rintro ⟨above, below, rfl, hmatch⟩
    refine ⟨'/' :: below, List.suffix_append _ _, ?_⟩
    rw [matchPieces_cons hchar, Bool.and_eq_true]
    exact ⟨rfl, hmatch⟩

/-- Several pairs of stars need a slash at least. -/
theorem exists_of_matchWhole_deepen (h : matchWhole (deepen (k + 1) pattern) text = true) :
    ∃ above below, text = above ++ '/' :: below ∧ matchWhole pattern below = true := by
  induction k generalizing text with
  | zero => exact matchWhole_deepen.mp h
  | succ k ih =>
    obtain ⟨first, text, rfl, hmatch⟩ := matchWhole_deepen.mp h
    obtain ⟨above, below, rfl, hbelow⟩ := ih hmatch
    -- the first star takes over what the later ones stand for
    refine ⟨first ++ '/' :: above, below, ?_, hbelow⟩
    rw [List.append_assoc, List.cons_append]

/-- A pattern without such a pair is matched as it is. -/
theorem matchFrom_of_bare (h : ¬['*', '*', '/'] <+: pattern) :
    matchFrom pattern text = matchWhole pattern text := by
  unfold matchFrom
  split
  · exact absurd (List.prefix_append ['*', '*', '/'] _) h
  · exact Bool.or_false _

/-- A pair of stars matches, or may be left out. -/
theorem matchFrom_cons : matchFrom ('*' :: '*' :: '/' :: pattern) text = true ↔
    matchWhole ('*' :: '*' :: '/' :: pattern) text = true ∨ matchFrom pattern text = true := by
  rw [matchFrom, Bool.or_eq_true]

/-- With more pairs of stars a pattern matches no less. -/
theorem matchFrom_deepen_of (h : matchFrom pattern text = true) (k : Nat) :
    matchFrom (deepen k pattern) text = true := by
  induction k with
  | zero => exact h
  | succ k ih => exact matchFrom_cons.mpr (.inr ih)

/-- **A pattern with pairs of stars before it** matches what is at any depth of a text. -/
theorem matchFrom_deepen (h : ¬['*', '*', '/'] <+: pattern) : matchFrom (deepen (k + 1) pattern) text = true ↔
    ∃ below, Below text below ∧ matchWhole pattern below = true := by
  constructor
  · intro hmatch
    induction k with
    | zero =>
      rcases matchFrom_cons.mp hmatch with hpair | hwhole
      · obtain ⟨above, below, htext, hbelow⟩ := matchWhole_deepen.mp hpair
        exact ⟨below, .inr ⟨above, htext⟩, hbelow⟩
      · exact ⟨text, .inl rfl, matchFrom_of_bare h ▸ hwhole⟩
    | succ k ih =>
      rcases matchFrom_cons.mp hmatch with hpairs | hfewer
      · obtain ⟨above, below, htext, hbelow⟩ := exists_of_matchWhole_deepen hpairs
        exact ⟨below, .inr ⟨above, htext⟩, hbelow⟩
      · exact ih hfewer
  · rintro ⟨below, hplace, hbelow⟩
    -- the last pair is all that is needed
    have hone : matchFrom (deepen 1 pattern) text = true := by
      apply matchFrom_cons.mpr
      rcases hplace with rfl | ⟨above, htext⟩
      · exact .inr ((matchFrom_of_bare h).trans hbelow)
      · exact .inl (matchWhole_deepen.mpr ⟨above, below, htext, hbelow⟩)
    have hmore : deepen (k + 1) pattern = deepen k (deepen 1 pattern) := by
      clear hone
      induction k with
      | zero => rfl
      | succ k ih => exact congrArg ('*' :: '*' :: '/' :: ·) ih
    rw [hmore]
    exact matchFrom_deepen_of hone k

/-! ### Paths -/

theorem toList_deepen (k : Nat) (q : String) :
    (String.join (List.replicate k "**/") ++ q).toList = deepen k q.toList := by
  induction k with
  | zero => simp [deepen]
  | succ k ih =>
    rw [String.toList_append] at ih
    simp [List.replicate_succ, deepen, ← ih]

/-- **Leading pairs of stars match at any depth.**  A pattern with one of them before it, or several, matches a path
    exactly if the pattern itself matches the whole path, or what stands behind one of its slashes.  So it does
    not matter how many there are. -/
theorem leading_stars_match_any_depth {q : String} (hq : ¬"**/".toList <+: q.toList) (path : String) :
    (∀ k, 1 ≤ k → (matchPath (String.join (List.replicate k "**/") ++ q) path = true ↔
      ∃ b : String, (b = path ∨ ∃ above : String, path = above ++ "/" ++ b) ∧
        matchWhole q.toList b.toList = true)) ∧
    ∀ k k', 1 ≤ k → 1 ≤ k' → matchPath (String.join (List.replicate k "**/") ++ q) path
      = matchPath (String.join (List.replicate k' "**/") ++ q) path := by
  have hdepth (k : Nat) (hk : 1 ≤ k) : matchPath (String.join (List.replicate k "**/") ++ q) path = true ↔
      ∃ b : String, (b = path ∨ ∃ above : String, path = above ++ "/" ++ b) ∧
        matchWhole q.toList b.toList = true := by
    -- the number of stars does not show in what the deepened pattern matches
    obtain ⟨k, rfl⟩ := Nat.exists_eq_add_of_le' hk
    rw [matchPath, toList_deepen, matchFrom_deepen hq]
    constructor
    · rintro ⟨below, hplace, hbelow⟩
      refine ⟨String.ofList below, ?_, by rwa [String.toList_ofList]⟩
      rcases hplace with rfl | ⟨above, habove⟩
      · exact .inl String.ofList_toList
      · refine .inr ⟨String.ofList above, String.toList_inj.mp ?_⟩
        simp [habove]
    · rintro ⟨b, hplace, hb⟩
      refine ⟨b.toList, ?_, hb⟩
      rcases hplace with rfl | ⟨above, rfl⟩
      · exact .inl rfl
      · exact .inr ⟨above.toList, by simp⟩
  refine ⟨hdepth, fun k k' hk hk' => ?_⟩
  rw [Bool.eq_iff_iff, hdepth k hk, hdepth k' hk']

/-- Three pairs of stars before a set match two directories down. -/
theorem leading_stars_match_two_down : ¬"**/".toList <+: "[!b]*.py".toList ∧
    matchPath (String.join (List.replicate 3 "**/") ++ "[!b]*.py") "b/c/a.py" = true ∧
    ∃ b : String, (b = "b/c/a.py" ∨ ∃ above : String, "b/c/a.py" = above ++ "/" ++ b) ∧
      matchWhole "[!b]*.py".toList b.toList = true := by
  have hq : ¬"**/".toList <+: "[!b]*.py".toList := by decide
  have hmatch : matchPath (String.join (List.replicate 3 "**/") ++ "[!b]*.py") "b/c/a.py" = true := by
    decide +kernel
  exact ⟨hq, hmatch, ((leading_stars_match_any_depth hq "b/c/a.py").1 3 (by decide)).mp hmatch⟩

end Docsmith.Glob
