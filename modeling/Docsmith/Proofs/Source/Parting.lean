import Docsmith.Proofs.Source.Removal

namespace Docsmith.Bytes

/-!
# What comments leave between code

White space that stands between two pieces of code outside of comments does not go with the comments as a
whole: of a comment at the end of a line the line feed stays, and of comments on lines of their own the one
before the first of them.  So code is joined only where nothing but comments parts it.

* `Commented`: a source with its comments, none of which ends with a line feed.
* `feed_before`: before a comment at the start of its line there is a line feed that stays.
* `blank_stays`: of the white space between two pieces of code some stays.
* `gapsFrom`, `sift_gaps`: what is left of a source are pieces of it that stay, with gaps between them.
* `Tokens`: the pieces of which the code outside of comments consists, and `Tokens.gaps`: what comments
  leave between them.
-/

variable {code : Bytes} {spans : List (Nat × Nat)} {i j k : Nat} {c : Nat × Nat}

/-- Comments that are apart.  A line feed in one of them is not at its end. -/
structure Commented (code : Bytes) (spans : List (Nat × Nat)) : Prop extends Apart code spans where
  closed : ∀ s ∈ spans, code.inkAt (s.2 - 1) = true ∨ ∀ i, s.1 ≤ i → i < s.2 → code[i]? ≠ some newline

/-- An offset holds ink outside of comments. -/
def codeAt (spans : List (Nat × Nat)) (code : Bytes) (i : Nat) : Bool := code.inkAt i && !covered spans i

theorem codeAt_iff : codeAt spans code i = true ↔ code.inkAt i = true ∧ covered spans i = false := by
  simp [codeAt]

/-- Two members of a list in order are one, or one comes before the other. -/
theorem pairwise_cases {α : Type} {R : α → α → Prop} {xs : List α} {x y : α} (h : xs.Pairwise R) (hx : x ∈ xs)
    (hy : y ∈ xs) : x = y ∨ R x y ∨ R y x := by
  induction xs with
  | nil => cases hx
  | cons z rest ih =>
    obtain ⟨hz, hrest⟩ := List.pairwise_cons.mp h
    rcases List.mem_cons.mp hx with rfl | hx'
    · rcases List.mem_cons.mp hy with rfl | hy'
      · exact .inl rfl
      · exact .inr (.inl (hz y hy'))
    · rcases List.mem_cons.mp hy with rfl | hy'
      · exact .inr (.inr (hz x hx'))
      · exact ih hrest hx' hy'

theorem Fenced.le {stop n : Nat} (h : code.Fenced stop n) : stop ≤ n := by
  obtain ⟨i, -, hstop, hi⟩ := h
  omega

namespace Apart

/-- Of two comments the one that begins first ends before the other begins. -/
theorem le_of_lt (h : Apart code spans) {d : Nat × Nat} (hd : d ∈ spans) (hc : c ∈ spans) (hlt : d.1 < c.1) :
    d.2 ≤ c.1 ∧ (code.cut d).2 ≤ (code.cut c).1 := by
  rcases pairwise_cases h.fenced hd hc with rfl | hfence | hfence
  · omega
  · exact ⟨hfence.le, cut_le_cut hfence (h.ink c hc)⟩
  · have hle := hfence.le
    have hsize := (h.inside c hc).1
    omega

/-- Code does not go with a comment. -/
theorem codeAt_cut (hcode : codeAt spans code i = true) (hc : c ∈ spans) :
    i < (code.cut c).1 ∨ (code.cut c).2 ≤ i := by
  obtain ⟨hink, hout⟩ := codeAt_iff.mp hcode
  by_contra hin
  have hcovered : covered (spans.map code.cut) i = true :=
    covered_iff.mpr ⟨_, List.mem_map_of_mem hc, by omega, by omega⟩
  rw [inkAt_of_covered_cut hcovered hout] at hink
  cases hink

end Apart

/-- What bounds white space and goes with a comment does not stand before it. -/
theorem le_of_boundAt (hbound : code.boundAt i = true) (hi : (code.cut c).1 ≤ i) : c.1 ≤ i := by
  by_contra hlt
  have hpad := lt_padStart hbound (n := c.1) (by omega)
  have hcut := padStart_le_cut code c
  omega

/-- Before an offset that does not begin the source a line begins behind a line feed. -/
theorem feed_of_lineStart {n : Nat} (hpos : 0 < code.lineStart n) :
    code[code.lineStart n - 1]? = some newline := by
  have hle := lineStart_le code n
  rcases (throughLastNewline_spec (code.take n)).2 with hzero | hfeed
  · rw [← lineStart_nat] at hzero
    omega
  · rw [← lineStart_nat, List.getElem?_take, if_pos (by omega)] at hfeed
    exact hfeed

/-- **Before a comment at the start of its line there is a line feed that stays**, behind the code before
    it. -/
theorem feed_before (h : Commented code spans) (hcode : codeAt spans code i = true) :
    ∀ c ∈ spans, i < c.1 → blank (code.beforeOnLine c.1) = true →
      ∃ m, i < m ∧ m < c.1 ∧ code[m]? = some newline ∧ covered (spans.map code.cut) m = false := by
  obtain ⟨hink, hout⟩ := codeAt_iff.mp hcode
  intro c
  -- the line feed in front may go with a comment on a line before, which is on lines of its own as well
  induction hn : c.1 using Nat.strong_induction_on generalizing c with
  | _ n ih =>
    subst hn
    intro hc hi hbefore
    have hblank := blank_slice_iff.mp hbefore
    have hstart := lineStart_le code c.1
    have hline : i < code.lineStart c.1 := by
      by_contra hle
      rw [hblank i (by omega) hi] at hink
      cases hink
    have hfeed : code[code.lineStart c.1 - 1]? = some newline := feed_of_lineStart (by omega)
    have hnot : i ≠ code.lineStart c.1 - 1 := by
      rintro rfl
      rw [inkAt, hfeed] at hink
      cases hink
    generalize hm : code.lineStart c.1 - 1 = m at hfeed hnot
    cases hcut : covered (spans.map code.cut) m with
    | false => exact ⟨m, by omega, by omega, hfeed, hcut⟩
    | true =>
      obtain ⟨r, hr, hlow, hhigh⟩ := covered_iff.mp hcut
      obtain ⟨d, hd, rfl⟩ := List.mem_map.mp hr
      have hdm := le_of_boundAt (boundAt_newline hfeed) hlow
      have horder := (h.le_of_lt hd hc (by omega)).1
      have hbehind : d.2 ≤ m := by
        by_contra hinside
        rcases h.closed d hd with hlast | hnone
        · by_cases hend : d.2 - 1 = m
          · rw [hend, inkAt, hfeed] at hlast
            cases hlast
          · rw [hblank (d.2 - 1) (by omega) (by have := (h.inside d hd).1; omega)] at hlast
            cases hlast
        · exact hnone m hdm (by omega) hfeed
      have hlone : blank (code.beforeOnLine d.1) = true := by
        by_contra hcompany
        unfold cut at hhigh
        rw [if_neg hcompany] at hhigh
        split at hhigh
        · dsimp only at hhigh
          omega
        · omega
      have hearlier : i < d.1 := by
        have hspec : (code.cut d).1 ≤ d.1 := (cut_spec (h.inside d hd).2).1
        rcases Apart.codeAt_cut hcode hd with hlt | hle <;> omega
      obtain ⟨m', hm', hlt, hfeed', hstays⟩ := ih d.1 (by omega) d rfl hd hearlier hlone
      exact ⟨m', hm', by omega, hfeed', hstays⟩

/-- The line of an offset ends behind a line feed, or with the source. -/
theorem feed_of_lineEnd {n : Nat} (hn : n ≤ code.length) :
    code.lineEnd n = code.length ∨ n < code.lineEnd n ∧ code[code.lineEnd n - 1]? = some newline := by
  have hlength : (code.drop n).length = code.length - n := List.length_drop
  have hsplit := List.takeWhile_append_dropWhile (p := (· != newline)) (l := code.drop n)
  unfold lineEnd throughFirstNewline
  dsimp only
  rw [position_nat, Nat.min_eq_left hn]
  -- no line feed is left, and the code ends the line; otherwise it is the last byte of the line
  cases hrest : (code.drop n).dropWhile (· != newline) with
  | nil => left; dsimp only; omega
  | cons x rest =>
    have hx : x = newline := by
      have hhead := List.head?_dropWhile_not (· != newline) (code.drop n)
      rw [hrest] at hhead
      simpa using hhead
    rw [hrest] at hsplit
    generalize (code.drop n).takeWhile (· != newline) = front at hsplit
    have hsize := congrArg List.length hsplit
    rw [List.length_append, List.length_cons] at hsize
    have hplace : (code.drop n)[front.length]? = some x := by
      rw [← hsplit, List.getElem?_append_right (Nat.le_refl _), Nat.sub_self, List.getElem?_cons_zero]
    rw [List.getElem?_drop, hx] at hplace
    right
    dsimp only
    refine ⟨by omega, ?_⟩
    rwa [show n + ((code.drop n).length - rest.length) - 1 = n + front.length by omega]

/-- **Of the white space between two pieces of code some stays** when comments go. -/
theorem blank_stays (h : Commented code spans) (hi : codeAt spans code i = true)
    (hj : codeAt spans code j = true) (hik : i < k) (hkj : k < j) (hblank : code.inkAt k = false)
    (hout : covered spans k = false) :
    ∃ m, i < m ∧ m < j ∧ code.inkAt m = false ∧ covered (spans.map code.cut) m = false := by
  cases hcut : covered (spans.map code.cut) k with
  | false => exact ⟨k, hik, hkj, hblank, hcut⟩
  | true =>
    obtain ⟨r, hr, hlow, hhigh⟩ := covered_iff.mp hcut
    obtain ⟨c, hc, rfl⟩ := List.mem_map.mp hr
    obtain ⟨hsize, hlength⟩ := h.inside c hc
    obtain ⟨hstart, hstop, -⟩ := cut_spec (s := c) hlength
    have hbefore : i < c.1 := by
      rcases Apart.codeAt_cut hi hc with hlt | hle <;> omega
    have hbehind : c.2 ≤ j := by
      rcases Apart.codeAt_cut hj hc with hlt | hle <;> omega
    have hnot : ¬ (c.1 ≤ k ∧ k < c.2) := fun hin => by
      rw [covered_iff.mpr ⟨c, hc, hin⟩] at hout
      cases hout
    -- more than the comment itself goes, so that nothing follows it on its line
    have hafter : blank (code.slice c.2 (code.lineEnd c.2)) = true := by
      by_contra hcompany
      unfold cut at hlow hhigh
      rw [if_neg hcompany] at hlow hhigh
      exact hnot ⟨hlow, hhigh⟩
    by_cases halone : blank (code.beforeOnLine c.1) = true
    · obtain ⟨m, hm, hlt, hfeed, hstays⟩ := feed_before h hi c hc hbefore halone
      exact ⟨m, hm, by omega, by rw [inkAt, hfeed]; rfl, hstays⟩
    · have hend : (code.cut c).2 = c.2 := by
        unfold cut
        rw [if_pos hafter, if_neg halone]
      have hnone := blank_slice_iff.mp hafter
      have hjink := (codeAt_iff.mp hj).1
      have hline : code.lineEnd c.2 ≤ j := by
        by_contra hlt
        rw [hnone j hbehind (by omega)] at hjink
        cases hjink
      have hjlength := lt_length_of_boundAt (boundAt_of_inkAt hjink)
      rcases feed_of_lineEnd hlength with hall | ⟨hpos, hfeed⟩
      · omega
      generalize hm : code.lineEnd c.2 - 1 = m at hfeed
      refine ⟨m, by omega, by omega, by rw [inkAt, hfeed]; rfl, ?_⟩
      -- no other comment begins on what is left of the line
      rw [← Bool.not_eq_true, covered_iff]
      rintro ⟨r, hr, hlow', hhigh'⟩
      obtain ⟨d, hd, rfl⟩ := List.mem_map.mp hr
      have hdm := le_of_boundAt (boundAt_newline hfeed) hlow'
      by_cases hdc : d.1 < c.2
      · rcases Nat.lt_trichotomy d.1 c.1 with hlt | heq | hgt
        · have horder := (h.le_of_lt hd hc hlt).2
          omega
        · rcases pairwise_cases h.fenced hd hc with rfl | hfence | hfence
          · omega
          · have := hfence.le
            have := (h.inside d hd).1
            omega
          · have := hfence.le
            omega
        · have horder := (h.le_of_lt hc hd hgt).1
          omega
      · have hdink := h.ink d hd
        rw [hnone d.1 (by omega) (by omega)] at hdink
        cases hdink

/-- Between two pieces of code without a comment between them all stays. -/
theorem all_stays (h : Commented code spans) (hi : codeAt spans code i = true)
    (hj : codeAt spans code j = true) (hik : i < k) (hkj : k < j)
    (hnone : ∀ m, i < m → m < j → covered spans m = false) : covered (spans.map code.cut) k = false := by
  rw [← Bool.not_eq_true, covered_iff]
  rintro ⟨r, hr, hlow, hhigh⟩
  obtain ⟨c, hc, rfl⟩ := List.mem_map.mp hr
  obtain ⟨hsize, hlength⟩ := h.inside c hc
  obtain ⟨hstart, hstop, -⟩ := cut_spec (s := c) hlength
  have hbefore := Apart.codeAt_cut hi hc
  have hbehind := Apart.codeAt_cut hj hc
  have hinside := hnone c.1 (by omega) (by omega)
  rw [covered_iff.mpr ⟨c, hc, Nat.le_refl _, hsize⟩] at hinside
  cases hinside

/-- Code stays when comments go. -/
theorem stays_of_codeAt (hi : codeAt spans code i = true) : covered (spans.map code.cut) i = false := by
  rw [← Bool.not_eq_true]
  intro hcut
  have hink := inkAt_of_covered_cut hcut (codeAt_iff.mp hi).2
  rw [(codeAt_iff.mp hi).1] at hink
  cases hink

/-- Ink that stays is code. -/
theorem Commented.codeAt_of_stays (h : Commented code spans) {x : UInt8} (hi : code[i]? = some x)
    (hink : isBlank x = false) (hstays : (!covered (spans.map code.cut) i) = true) :
    codeAt spans code i = true := by
  refine codeAt_iff.mpr ⟨(Option.any_eq_true _ _).mpr ⟨x, hi, by rw [hink]; rfl⟩, ?_⟩
  rw [← Bool.not_eq_true]
  intro hcovered
  rw [h.toApart.covered_cut hcovered] at hstays
  cases hstays

/-! ### Pieces and gaps -/

variable {keep : Nat → UInt8 → Bool} {pieces : List (Nat × Nat)} {pos : Nat}

/-- What a selection keeps before each of some pieces of a source, from an offset on, and behind the last. -/
def gapsFrom (keep : Nat → UInt8 → Bool) (code : Bytes) : Nat → List (Nat × Nat) → List Bytes
  | pos, [] => [sift keep pos (code.drop pos)]
  | pos, s :: rest => sift keep pos (code.slice pos s.1) :: gapsFrom keep code s.2 rest

/-- The pieces with the gaps before each of them and behind the last. -/
def interleave (gaps pieces : List Bytes) : Bytes := (List.zipWith (· ++ ·) gaps (pieces ++ [[]])).flatten

theorem length_gapsFrom (keep : Nat → UInt8 → Bool) (code : Bytes) (pos : Nat) (pieces : List (Nat × Nat)) :
    (gapsFrom keep code pos pieces).length = pieces.length + 1 := by
  induction pieces generalizing pos with
  | nil => rfl
  | cons s rest ih => rw [gapsFrom, List.length_cons, ih, List.length_cons]

/-- The gap between two pieces in a row. -/
theorem getElem?_gapsFrom {n : Nat} {s s' : Nat × Nat} (hs : pieces[n]? = some s)
    (hs' : pieces[n + 1]? = some s') :
    (gapsFrom keep code pos pieces)[n + 1]? = some (sift keep s.2 (code.slice s.2 s'.1)) := by
  induction n generalizing pos pieces with
  | zero =>
    match pieces with
    | a :: b :: rest =>
      simp only [List.getElem?_cons_zero, List.getElem?_cons_succ, Option.some.injEq, Nat.zero_add] at hs hs'
      rw [hs, hs']
      rfl
  | succ n ih =>
    cases pieces with
    | nil => cases hs
    | cons a rest => exact ih hs hs'

/-- **What is left of a source are the pieces that stay, with gaps between them.** -/
theorem sift_gaps (hpair : pieces.Pairwise fun s s' => s.2 ≤ s'.1) (hpos : ∀ s ∈ pieces, pos ≤ s.1)
    (hin : ∀ s ∈ pieces, s.1 ≤ s.2) (hkeep : ∀ s ∈ pieces, ∀ i b, s.1 ≤ i → i < s.2 → keep i b = true) :
    sift keep pos (code.drop pos)
      = interleave (gapsFrom keep code pos pieces) (pieces.map fun s => code.slice s.1 s.2) := by
  induction pieces generalizing pos with
  | nil => simp [gapsFrom, interleave]
  | cons s rest ih =>
    obtain ⟨hs, hrest⟩ := List.pairwise_cons.mp hpair
    have hlater := ih hrest hs (fun x hx => hin x (List.mem_cons_of_mem s hx)) fun x hx =>
      hkeep x (List.mem_cons_of_mem s hx)
    have hpiece : sift keep s.1 (code.slice s.1 s.2) = code.slice s.1 s.2 := by
      refine sift_eq_self fun k b hk => ?_
      have hlength := (List.getElem?_eq_some_iff.mp hk).1
      rw [slice_nat, List.length_drop, List.length_take] at hlength
      exact hkeep s List.mem_cons_self _ b (by omega) (by omega)
    rw [sift_drop keep code (hpos s List.mem_cons_self), sift_drop keep code (hin s List.mem_cons_self), hpiece,
      hlater]
    simp [gapsFrom, interleave]

/-- What is kept is what is there and not refused. -/
theorem mem_sift {xs : Bytes} {x : UInt8} :
    x ∈ sift keep pos xs ↔ ∃ k, xs[k]? = some x ∧ keep (pos + k) x = true := by
  induction xs generalizing pos with
  | nil => simp [sift]
  | cons b rest ih =>
    have hlater : x ∈ sift keep (pos + 1) rest ↔
        ∃ k, (b :: rest)[k + 1]? = some x ∧ keep (pos + (k + 1)) x = true := by
      rw [ih]
      simp only [List.getElem?_cons_succ, Nat.add_assoc, Nat.add_comm 1]
    -- the first byte, or one of the others
    rw [← Nat.or_exists_add_one, ← hlater, sift]
    split <;> rename_i hb
    · simp only [List.mem_cons, List.getElem?_cons_zero, Option.some.injEq, Nat.add_zero]
      constructor
      · rintro (rfl | h)
        · exact .inl ⟨rfl, hb⟩
        · exact .inr h
      · rintro (⟨rfl, -⟩ | h)
        · exact .inl rfl
        · exact .inr h
    · simp only [List.getElem?_cons_zero, Option.some.injEq, Nat.add_zero]
      refine ⟨.inr, fun h => h.resolve_left ?_⟩
      rintro ⟨rfl, hkeep⟩
      exact hb hkeep

/-- What is kept between two offsets is there. -/
theorem mem_sift_slice {a b : Nat} {x : UInt8} : x ∈ sift keep a (code.slice a b) ↔
    ∃ i, a ≤ i ∧ i < b ∧ code[i]? = some x ∧ keep i x = true := by
  rw [mem_sift]
  constructor
  · rintro ⟨k, hk, hkeep⟩
    have hlength := (List.getElem?_eq_some_iff.mp hk).1
    rw [slice_nat, List.length_drop, List.length_take] at hlength
    rw [slice_nat, List.getElem?_drop, List.getElem?_take, if_pos (by omega)] at hk
    exact ⟨a + k, Nat.le_add_right _ _, by omega, hk, hkeep⟩
  · rintro ⟨i, hlow, hhigh, hi, hkeep⟩
    refine ⟨i - a, ?_, by rwa [Nat.add_sub_cancel' hlow]⟩
    rw [slice_nat, List.getElem?_drop, List.getElem?_take, if_pos (by omega), Nat.add_sub_cancel' hlow, hi]

/-- Each byte of a gap stands in the source, where the selection keeps it, and in no piece. -/
theorem mem_gapsFrom {g : Bytes} {x : UInt8} (hpair : pieces.Pairwise fun s s' => s.2 ≤ s'.1)
    (hpos : ∀ s ∈ pieces, pos ≤ s.1) (hin : ∀ s ∈ pieces, s.1 ≤ s.2)
    (hg : g ∈ gapsFrom keep code pos pieces) (hx : x ∈ g) :
    ∃ i, pos ≤ i ∧ code[i]? = some x ∧ keep i x = true ∧ covered pieces i = false := by
  induction pieces generalizing pos with
  | nil =>
    rw [gapsFrom, List.mem_singleton] at hg
    rw [hg] at hx
    obtain ⟨k, hk, hkeep⟩ := mem_sift.mp hx
    rw [List.getElem?_drop] at hk
    exact ⟨pos + k, Nat.le_add_right _ _, hk, hkeep, rfl⟩
  | cons s rest ih =>
    obtain ⟨hs, hrest⟩ := List.pairwise_cons.mp hpair
    have hsize := hin s List.mem_cons_self
    have hstart := hpos s List.mem_cons_self
    rw [gapsFrom, List.mem_cons] at hg
    rcases hg with rfl | hg
    · obtain ⟨i, hlow, hhigh, hi, hkeep⟩ := mem_sift_slice.mp hx
      refine ⟨i, hlow, hi, hkeep, ?_⟩
      rw [← Bool.not_eq_true, covered_iff]
      rintro ⟨s', hs', hlow', hhigh'⟩
      rcases List.mem_cons.mp hs' with rfl | hs'
      · omega
      · have := hs s' hs'
        omega
    · obtain ⟨i, hlow, hi, hkeep, hout⟩ := ih hrest hs (fun x hx => hin x (List.mem_cons_of_mem s hx)) hg
      refine ⟨i, by omega, hi, hkeep, ?_⟩
      rw [← Bool.not_eq_true, covered_iff] at hout ⊢
      rintro ⟨s', hs', hlow', hhigh'⟩
      rcases List.mem_cons.mp hs' with rfl | hs'
      · omega
      · exact hout ⟨s', hs', hlow', hhigh'⟩

/-! ### Tokens -/

/-- Pieces of a source in order, outside of its comments, each of which begins and ends with ink.  Behind the
    first of them there is no other ink outside of comments. -/
structure Tokens (code : Bytes) (spans tokens : List (Nat × Nat)) : Prop where
  size : ∀ s ∈ tokens, s.1 < s.2
  ordered : tokens.Pairwise fun s s' => s.2 ≤ s'.1
  outside : ∀ s ∈ tokens, ∀ i, s.1 ≤ i → i < s.2 → covered spans i = false
  first : ∀ s ∈ tokens, code.inkAt s.1 = true
  last : ∀ s ∈ tokens, code.inkAt (s.2 - 1) = true
  all : ∀ s ∈ tokens, ∀ i, s.1 ≤ i → codeAt spans code i = true → covered tokens i = true

/-- What two gaps between tokens have in common: the one that comments leave is white space.  It is nothing
    only where there was nothing but comments, and the same where there were none. -/
structure Parts (code : Bytes) (spans : List (Nat × Nat)) (a b : Nat) (gap : Bytes) : Prop where
  white : blank gap = true
  nothing : gap = [] ↔ ∀ i, a ≤ i → i < b → covered spans i = true
  same : (∀ i, a ≤ i → i < b → covered spans i = false) → gap = code.slice a b

namespace Tokens

variable {tokens : List (Nat × Nat)} {s s' : Nat × Nat}

theorem codeAt_first (h : Tokens code spans tokens) (hs : s ∈ tokens) : codeAt spans code s.1 = true :=
  codeAt_iff.mpr ⟨h.first s hs, h.outside s hs s.1 (Nat.le_refl _) (h.size s hs)⟩

theorem codeAt_last (h : Tokens code spans tokens) (hs : s ∈ tokens) :
    codeAt spans code (s.2 - 1) = true := by
  have hsize := h.size s hs
  exact codeAt_iff.mpr ⟨h.last s hs, h.outside s hs (s.2 - 1) (by omega) (by omega)⟩

/-- All of a token stays. -/
theorem stays (h : Tokens code spans tokens) (hspans : Commented code spans) (hs : s ∈ tokens) (hi : s.1 ≤ i)
    (hi' : i < s.2) : covered (spans.map code.cut) i = false := by
  have hfirst := h.codeAt_first hs
  have hlast := h.codeAt_last hs
  rcases Nat.eq_or_lt_of_le hi with rfl | hlow
  · exact stays_of_codeAt hfirst
  · by_cases hend : i = s.2 - 1
    · rw [hend]
      exact stays_of_codeAt hlast
    · exact all_stays hspans hfirst hlast hlow (by omega) fun m hm hm' =>
        h.outside s hs m (by omega) (by omega)

/-- **Between two tokens in a row white space is left** where there was white space, and nothing else. -/
theorem parts (h : Tokens code spans tokens) (hspans : Commented code spans) (hs : s ∈ tokens)
    (hs' : s' ∈ tokens) (hnext : ∀ i, s.2 ≤ i → i < s'.1 → covered tokens i = false) :
    Parts code spans s.2 s'.1
      (sift (fun i _ => !covered (spans.map code.cut) i) s.2 (code.slice s.2 s'.1)) where
  white := by
    refine List.all_eq_true.mpr fun x hx => ?_
    -- ink that stays is code, and between the two tokens no token covers it
    obtain ⟨i, hlow, hhigh, hi, hkeep⟩ := mem_sift_slice.mp hx
    by_contra hink
    have hsize := h.size s hs
    have hall := h.all s hs i (by omega) (hspans.codeAt_of_stays hi (by simpa using hink) hkeep)
    rw [hnext i hlow hhigh] at hall
    cases hall
  nothing := by
    have hsize := h.size s hs
    constructor
    -- a gap that is left empty had no blank of its own: a blank between comments would have stayed
    · intro hnil i hlow hhigh
      by_contra hout
      rw [Bool.not_eq_true] at hout
      have hink : code.inkAt i = false := by
        rw [← Bool.not_eq_true]
        intro hink
        have hall := h.all s hs i (by omega) (codeAt_iff.mpr ⟨hink, hout⟩)
        rw [hnext i hlow hhigh] at hall
        cases hall
      obtain ⟨m, hm, hm', -, hstays⟩ := blank_stays hspans (h.codeAt_last hs) (h.codeAt_first hs')
        (k := i) (by omega) hhigh hink hout
      have hlength := lt_length_of_boundAt (boundAt_of_inkAt (h.first s' hs'))
      have hmem : code[m] ∈ sift (fun i _ => !covered (spans.map code.cut) i) s.2 (code.slice s.2 s'.1) :=
        mem_sift_slice.mpr ⟨m, by omega, hm', List.getElem?_eq_getElem (by omega), by rw [hstays]; rfl⟩
      rw [hnil] at hmem
      cases hmem
    · intro hall
      refine sift_eq_nil fun k b hk => ?_
      have hlength := (List.getElem?_eq_some_iff.mp hk).1
      rw [slice_nat, List.length_drop, List.length_take] at hlength
      rw [hspans.toApart.covered_cut (hall (s.2 + k) (by omega) (by omega))]
      rfl
  -- without a comment in the gap, nothing of it goes
  same hnone := by
    have hsize := h.size s hs
    refine sift_eq_self fun k b hk => ?_
    have hlength := (List.getElem?_eq_some_iff.mp hk).1
    rw [slice_nat, List.length_drop, List.length_take] at hlength
    rw [all_stays hspans (h.codeAt_last hs) (h.codeAt_first hs') (by omega) (by omega) fun m hm hm' =>
      hnone m (by omega) hm']
    rfl

/-- There is no token between two tokens in a row. -/
theorem between (h : Tokens code spans tokens) {n : Nat} (hs : tokens[n]? = some s)
    (hs' : tokens[n + 1]? = some s') (hlow : s.2 ≤ i) (hhigh : i < s'.1) : covered tokens i = false := by
  obtain ⟨hn, rfl⟩ := List.getElem?_eq_some_iff.mp hs
  obtain ⟨hn', rfl⟩ := List.getElem?_eq_some_iff.mp hs'
  have hpair := List.pairwise_iff_getElem.mp h.ordered
  rw [← Bool.not_eq_true, covered_iff]
  rintro ⟨r, hr, hlow', hhigh'⟩
  obtain ⟨k, hk, rfl⟩ := List.mem_iff_getElem.mp hr
  -- another token between the two would have to stand before, at, or behind both of them
  rcases Nat.lt_trichotomy k n with hlt | rfl | hgt
  · have hbefore := hpair k n hk hn hlt
    have hsize := h.size tokens[n] (List.getElem_mem hn)
    omega
  · omega
  · by_cases hnext : k = n + 1
    · subst hnext
      omega
    · have hbehind := hpair (n + 1) k hn' hk (by omega)
      have hsize := h.size tokens[n + 1] (List.getElem_mem hn')
      omega

/-- **The tokens stay when comments go**, and white space parts them where it parted them before. -/
theorem gaps (h : Tokens code spans tokens) (hspans : Commented code spans) : ∃ gaps : List Bytes,
    gaps.length = tokens.length + 1 ∧ (∀ g ∈ gaps.tail, blank g = true) ∧
      sift (fun i _ => !covered (spans.map code.cut) i) 0 code
        = interleave gaps (tokens.map fun s => code.slice s.1 s.2) ∧
      ∀ n s s', tokens[n]? = some s → tokens[n + 1]? = some s' →
        ∃ gap, gaps[n + 1]? = some gap ∧ Parts code spans s.2 s'.1 gap := by
  have hin : ∀ s ∈ tokens, s.1 ≤ s.2 := fun s hs => Nat.le_of_lt (h.size s hs)
  refine ⟨gapsFrom (fun i _ => !covered (spans.map code.cut) i) code 0 tokens, length_gapsFrom _ _ _ _,
    ?_, ?_, ?_⟩
  · intro g hg
    -- behind the first token all ink that stays is that of tokens
    cases htokens : tokens with
    | nil => rw [htokens] at hg; cases hg
    | cons s rest =>
      have hs : s ∈ tokens := htokens ▸ List.mem_cons_self
      have hordered := h.ordered
      rw [htokens] at hg hordered hin
      obtain ⟨hfirst, hrest⟩ := List.pairwise_cons.mp hordered
      refine List.all_eq_true.mpr fun x hx => ?_
      obtain ⟨i, hlow, hi, hkeep, hout⟩ :=
        mem_gapsFrom hrest hfirst (fun r hr => hin r (List.mem_cons_of_mem s hr)) hg hx
      by_contra hink
      have hsize := h.size s hs
      have hall := h.all s hs i (by omega) (hspans.codeAt_of_stays hi (by simpa using hink) hkeep)
      rw [htokens, covered_iff] at hall
      obtain ⟨r, hr, hlow', hhigh'⟩ := hall
      rcases List.mem_cons.mp hr with rfl | hr
      · omega
      · rw [covered_iff.mpr ⟨r, hr, hlow', hhigh'⟩] at hout
        cases hout
  · refine sift_gaps h.ordered (fun s _ => Nat.zero_le s.1) hin fun s hs i b hi hi' => ?_
    rw [h.stays hspans hs hi hi']
    rfl
  · intro n s s' hs hs'
    have hmem := List.mem_of_getElem? hs
    have hmem' := List.mem_of_getElem? hs'
    exact ⟨_, getElem?_gapsFrom hs hs', h.parts hspans hmem hmem' fun i => h.between hs hs'⟩

end Tokens

end Docsmith.Bytes
