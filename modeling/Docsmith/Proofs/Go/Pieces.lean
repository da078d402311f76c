import Docsmith.Proofs.Doc.Leading
import Docsmith.Proofs.Go.Tokens
import Mathlib.Logic.Relation

namespace Docsmith.Go

open Grammar

/-!
# The pieces of a Go source

A source falls into pieces from its beginning on: comments, literals in quotes, and single bytes.  No token of the
grammar ends inside a piece, so that all places where a reader may stop are joints between pieces.  The pieces before a
joint tell the mood there, and with it whether the statement before the joint has ended.

* `Mood`, `Mood.exposed`: what is known of a joint from the pieces before it.
* `pieceLength`, `Mood.behind`: the piece at the head, and the mood behind it.
* `Step`, `Joint`: from one joint to the next, and the joints of a source; `Joint.unique`: they have one mood each.
* `Joint.exists_stop`: a mood in which a statement has ended comes with a byte that ends one.
* `Joint.lineStart`: white space at the head of a line begins at a joint.
* `Joint.firm`: bytes of names, numbers and most symbols are pieces of their own.
-/

/-- What is known of a joint from the pieces before it. -/
inductive Mood where
  /-- there is only white space before it on its line -/
  | line
  /-- there are only white space and comments behind an opening parenthesis or the end of a statement -/
  | fresh
  /-- no statement is under way, but the end of one is not awaited either -/
  | calm
  /-- a statement is under way -/
  | firm
deriving DecidableEq

/-- There are only white space and comments behind the end of a statement or an opening parenthesis. -/
def Mood.exposed : Mood → Bool
  | .line => true
  | .fresh => true
  | .calm => false
  | .firm => false

/-- The length of the piece at the head: a comment, a literal in quotes, or a single byte; zero when there is nothing
    or a literal does not end. -/
def pieceLength : Bytes → Nat
  | [] => 0
  | b :: rest =>
    if commentLength (b :: rest) != 0 then commentLength (b :: rest)
    else if b == 0x22 then stringLength (b :: rest)
    else if b == 0x60 then rawLength (b :: rest)
    else if b == 0x27 then runeLength (b :: rest)
    else 1

/-- The byte begins a comment, a literal in quotes or nothing but itself, and it tells the mood. -/
def isSpecial (b : UInt8) : Bool :=
  Bytes.isBlank b || b == 0x22 || b == 0x60 || b == 0x27 || b == 0x2f || b == 0x28 || b == 0x3b || b == 0x7b
    || b == 0x3a || b == 0

/-- The byte ends a statement or opens a parenthesis. -/
def isStop (b : UInt8) : Bool := b == Bytes.newline || b == 0x28 || b == 0x3b || b == 0

/-- The mood behind the piece at the head. -/
def Mood.behind (k : Mood) : Bytes → Mood
  | [] => k
  | b :: rest =>
    if commentLength (b :: rest) != 0 then if k = .line then .fresh else k
    else if b == Bytes.newline then .line
    else if Bytes.isBlank b then k
    else if b == 0x28 || b == 0 then .fresh
    else if b == 0x3b then if k = .firm then .fresh else .calm
    else if b == 0x7b || b == 0x3a then .calm
    else .firm

/-- From one joint with its mood to the next one. -/
def Step (code : Bytes) (x y : Mood × Nat) : Prop :=
  pieceLength (code.drop x.2) ≠ 0 ∧
    y = (x.1.behind (code.drop x.2), x.2 + pieceLength (code.drop x.2))

/-- From one joint to a later one. -/
abbrev Path (code : Bytes) : Mood × Nat → Mood × Nat → Prop := Relation.ReflTransGen (Step code)

/-- The offset behind the byte order mark, if there is one. -/
def markStop (code : Bytes) : Nat := markLength (.origin code)

/-- The mood there; behind a byte order mark no line begins. -/
def Mood.first (code : Bytes) : Mood := if markStop code = 0 then .line else .fresh

/-- The offset is a joint of the source, with a mood. -/
def Joint (code : Bytes) (k : Mood) (o : Nat) : Prop := Path code (.first code, markStop code) (k, o)

variable {code bytes rest : Bytes} {k k' : Mood} {o o' n i : Nat} {b : UInt8} {x y z : Mood × Nat}

/-! ### Pieces -/

theorem commentLength_cons (h : b ≠ 0x2f) (rest : Bytes) : commentLength (b :: rest) = 0 := by
  by_contra hne
  obtain ⟨-, hfirst, -⟩ := commentLength_cases hne
  exact h (Option.some.inj hfirst)

/-- A piece is a comment, a literal in quotes, or a single byte. -/
theorem pieceLength_cases (h : pieceLength bytes ≠ 0) :
    pieceLength bytes = commentLength bytes ∨ (commentLength bytes = 0 ∧ Framed bytes (pieceLength bytes) ∧
      ∃ b, bytes[0]? = some b ∧ (b = 0x22 ∨ b = 0x60 ∨ b = 0x27)) ∨
      commentLength bytes = 0 ∧ pieceLength bytes = 1 ∧ ∃ b rest, bytes = b :: rest := by
  cases bytes with
  | nil => exact absurd rfl h
  | cons b rest =>
    unfold pieceLength at h ⊢
    by_cases hcomment : commentLength (b :: rest) = 0
    · simp only [hcomment, bne_self_eq_false, Bool.false_eq_true, if_false] at h ⊢
      right
      split_ifs at h ⊢ with hstring hraw hrune
      · exact .inl ⟨trivial, stringLength_framed h, b, rfl, .inl (beq_iff_eq.mp hstring)⟩
      · exact .inl ⟨trivial, rawLength_framed h, b, rfl, .inr (.inl (beq_iff_eq.mp hraw))⟩
      · exact .inl ⟨trivial, runeLength_framed h, b, rfl, .inr (.inr (beq_iff_eq.mp hrune))⟩
      · exact .inr ⟨trivial, rfl, b, rest, rfl⟩
    · exact .inl (if_pos (by simpa using hcomment))

/-- A piece is there. -/
theorem pieceLength_le (bytes : Bytes) : pieceLength bytes ≤ bytes.length := by
  by_cases h : pieceLength bytes = 0
  · omega
  · rcases pieceLength_cases h with hcomment | ⟨-, hframed, -⟩ | ⟨-, hone, b, rest, rfl⟩
    · rw [hcomment] at h ⊢
      exact (commentLength_cases h).1
    · obtain ⟨y, hy, -⟩ := hframed.last
      have := (List.getElem?_eq_some_iff.mp hy).1
      omega
    · rw [hone]
      simp

/-- A byte that begins no comment and no literal is a piece. -/
theorem pieceLength_single (h : commentLength (b :: rest) = 0) (hb : b ≠ 0x22 ∧ b ≠ 0x60 ∧ b ≠ 0x27) :
    pieceLength (b :: rest) = 1 := by
  simp [pieceLength, h, hb]

/-- A byte that ends a statement is a piece. -/
theorem pieceLength_stop (h : isStop b = true) (rest : Bytes) : pieceLength (b :: rest) = 1 := by
  simp only [isStop, Bool.or_eq_true, beq_iff_eq] at h
  have hne : b ≠ 0x2f ∧ b ≠ 0x22 ∧ b ≠ 0x60 ∧ b ≠ 0x27 := by
    rcases h with ((rfl | rfl) | rfl) | rfl <;> decide
  exact pieceLength_single (commentLength_cons hne.1 rest) hne.2

theorem isBlank_ne (h : Bytes.isBlank b = true) {c : UInt8} (hc : Bytes.isBlank c = false := by decide) : b ≠ c := by
  rintro rfl
  rw [h] at hc
  cases hc

/-- White space comes byte by byte. -/
theorem pieceLength_blank (h : Bytes.isBlank b = true) (rest : Bytes) : pieceLength (b :: rest) = 1 :=
  pieceLength_single (commentLength_cons (isBlank_ne h) rest) ⟨isBlank_ne h, isBlank_ne h, isBlank_ne h⟩

/-- The mood behind white space. -/
theorem behind_blank (h : Bytes.isBlank b = true) (k : Mood) (rest : Bytes) :
    k.behind (b :: rest) = if b = Bytes.newline then .line else k := by
  rw [Mood.behind, commentLength_cons (isBlank_ne h) rest]
  simp [h]

/-- Behind a comment a mood stays as exposed as it was. -/
theorem behind_comment (h : commentLength bytes ≠ 0) (k : Mood) :
    k.behind bytes = if k = .line then .fresh else k := by
  cases bytes with
  | nil => exact absurd rfl h
  | cons b rest => rw [Mood.behind, if_pos (by simpa using h)]

/-- **A mood becomes exposed by a byte that ends a statement** or opens a parenthesis. -/
theorem exposed_behind (h : (k.behind bytes).exposed = true) : k.exposed = true ∨
    ∃ b rest, bytes = b :: rest ∧ isStop b = true := by
  cases bytes with
  | nil => exact .inl h
  | cons b rest =>
    rw [Mood.behind] at h
    split_ifs at h with hcomment hk hfeed hblank hopen hsemi hfirm hcalm
    · exact .inl (by rw [hk]; rfl)
    · exact .inl h
    · exact .inr ⟨b, rest, rfl, by simp [isStop, hfeed]⟩
    · exact .inl h
    · refine .inr ⟨b, rest, rfl, ?_⟩
      rw [Bool.or_eq_true] at hopen
      rcases hopen with hopen | hopen <;> simp [isStop, hopen]
    · exact .inr ⟨b, rest, rfl, by simp [isStop, hsemi]⟩
    all_goals cases h

/-! ### Joints -/

/-- A source begins with its byte order mark, if it has one. -/
theorem markStop_cases (code : Bytes) :
    markStop code = 0 ∨ markStop code = 3 ∧ ∃ rest, code = 0xef :: 0xbb :: 0xbf :: rest := by
  unfold markStop markLength
  split
  · rename_i h
    refine .inr ⟨rfl, code.drop 3, ?_⟩
    have htake := take_of_startsWith (Bool.and_eq_true_iff.mp h).2
    have hsplit := (List.take_append_drop 3 code).symm
    change code.take 3 = _ at htake
    rwa [htake] at hsplit
  · exact .inl rfl

theorem markStop_le_length (code : Bytes) : markStop code ≤ code.length := by
  rcases markStop_cases code with h | ⟨h, rest, hcode⟩
  · rw [h]
    exact Nat.zero_le _
  · rw [h, hcode]
    simp

theorem Step.lt (h : Step code x y) : x.2 < y.2 := by
  obtain ⟨hpos, rfl⟩ := h
  exact Nat.lt_add_of_pos_right (Nat.pos_of_ne_zero hpos)

theorem Path.le (h : Path code x y) : x.2 ≤ y.2 := by
  induction h with
  | refl => exact Nat.le_refl _
  | tail _ hstep ih => exact Nat.le_trans ih (Nat.le_of_lt hstep.lt)

theorem Path.le_length (h : Path code x y) (hx : x.2 ≤ code.length) : y.2 ≤ code.length := by
  induction h with
  | refl => exact hx
  | @tail y z _ hstep ih =>
    obtain ⟨-, rfl⟩ := hstep
    have hpiece := pieceLength_le (code.drop y.2)
    rw [List.length_drop] at hpiece
    show y.2 + pieceLength (code.drop y.2) ≤ code.length
    omega

/-- The piece in which a byte before a joint lies. -/
theorem Path.exists_piece (h : Path code x y) (hx : x.2 ≤ i) (hi : i < y.2) : ∃ z, Path code x z ∧ z.2 ≤ i ∧
    pieceLength (code.drop z.2) ≠ 0 ∧ i < z.2 + pieceLength (code.drop z.2) ∧
    z.2 + pieceLength (code.drop z.2) ≤ y.2 := by
  induction h with
  | refl => omega
  | @tail y z hpath hstep ih =>
    obtain ⟨hpos, rfl⟩ := hstep
    by_cases hlt : i < y.2
    · obtain ⟨w, hw, hle, hne, hin, hout⟩ := ih hlt
      exact ⟨w, hw, hle, hne, hin, Nat.le_trans hout (Nat.le_add_right _ _)⟩
    · exact ⟨y, hpath, by omega, hpos, hi, Nat.le_refl _⟩

theorem Path.eq_of_le (h : Path code x y) (hle : y.2 ≤ x.2) : x = y := by
  rcases Relation.ReflTransGen.cases_head h with heq | ⟨z, hstep, hrest⟩
  · exact heq
  · have hlt := hstep.lt
    have hle' := Path.le hrest
    omega

namespace Joint

theorem origin (code : Bytes) : Joint code (.first code) (markStop code) := .refl

/-- A source without a byte order mark begins with a line. -/
theorem origin_of_markStop (h : markStop code = 0) : Joint code .line 0 := by
  have horigin := origin code
  rwa [Mood.first, if_pos h, h] at horigin

theorem step (h : Joint code k o) (hn : pieceLength (code.drop o) ≠ 0) :
    Joint code (k.behind (code.drop o)) (o + pieceLength (code.drop o)) := h.tail ⟨hn, rfl⟩

/-- Of two joints one lies on the way to the other. -/
theorem path (h : Joint code k o) (h' : Joint code k' o') (hle : o ≤ o') : Path code (k, o) (k', o') := by
  have hunique : Relator.RightUnique (Step code) := fun a b c hb hc => hb.2.trans hc.2.symm
  rcases Relation.ReflTransGen.total_of_right_unique hunique h h' with hpath | hpath
  · exact hpath
  · rw [Path.eq_of_le hpath hle]

/-- **A joint has one mood.** -/
theorem unique (h : Joint code k o) (h' : Joint code k' o) : k = k' :=
  congrArg Prod.fst (Path.eq_of_le (h.path h' (Nat.le_refl o)) (Nat.le_refl o))

/-- No joint is in the byte order mark. -/
theorem markStop_le (h : Joint code k o) : markStop code ≤ o := Path.le h

theorem le_length (h : Joint code k o) : o ≤ code.length := Path.le_length h (markStop_le_length code)

/-- A later joint is behind the piece. -/
theorem piece_le (h : Joint code k o) (h' : Joint code k' o') (hlt : o < o') :
    pieceLength (code.drop o) ≠ 0 ∧ o + pieceLength (code.drop o) ≤ o' := by
  rcases Relation.ReflTransGen.cases_head (h.path h' (Nat.le_of_lt hlt)) with heq | ⟨z, hstep, hrest⟩
  · cases heq
    exact absurd hlt (Nat.lt_irrefl _)
  · have hle := Path.le hrest
    obtain ⟨hpos, rfl⟩ := hstep
    exact ⟨hpos, hle⟩

/-! ### Exposed joints -/

/-- **Between a joint that is not exposed and one that is, there is a byte that ends a statement** or opens a
    parenthesis. -/
theorem exists_stop (h : Joint code k o) (h' : Joint code k' o') (hle : o ≤ o') (hk : k.exposed = false)
    (hk' : k'.exposed = true) : ∃ i b, o ≤ i ∧ i < o' ∧ code[i]? = some b ∧ isStop b = true := by
  -- the path of pieces from one joint to the other, walked from its front
  have hpath := h.path h' hle
  clear h h' hle
  generalize hx : (k, o) = x at hpath
  generalize hy : (k', o') = y at hpath
  induction hpath using Relation.ReflTransGen.head_induction_on generalizing k o with
  | refl =>
    rw [← hy] at hx
    cases hx
    rw [hk] at hk'
    cases hk'
  | head hstep hrest ih =>
    subst hx
    obtain ⟨hpos, rfl⟩ := hstep
    have hlater := Path.le hrest
    rw [← hy] at hlater
    have hlater : o + pieceLength (code.drop o) ≤ o' := hlater
    cases hbehind : (k.behind (code.drop o)).exposed with
    | true =>
      -- an exposed mood behind the step comes from the mood before it or from a stop; the first is excluded
      rcases exposed_behind hbehind with hexposed | ⟨b, rest, hdrop, hstop⟩
      · rw [hk] at hexposed
        cases hexposed
      · refine ⟨o, b, Nat.le_refl o, by omega, ?_, hstop⟩
        rw [← Nat.add_zero o, ← List.getElem?_drop, hdrop]
        rfl
    | false =>
      -- still exposed at the end of the step, so the stop comes later
      obtain ⟨i, b, hi, hrest⟩ := ih hbehind rfl
      exact ⟨i, b, by omega, hrest⟩

/-- White space leads from joint to joint. -/
theorem blank (h : Joint code k o) (hn : o + n ≤ code.length)
    (hblank : ∀ i, o ≤ i → i < o + n → ∀ b, code[i]? = some b → Bytes.isBlank b = true) :
    ∃ k', Joint code k' (o + n) ∧ ((∀ i, o ≤ i → i < o + n → code[i]? ≠ some Bytes.newline) → k' = k) := by
  induction n with
  | zero => exact ⟨k, h, fun _ => rfl⟩
  | succ n ih =>
    obtain ⟨k₁, h₁, hk₁⟩ := ih (by omega) fun i hi hlt => hblank i hi (by omega)
    have hx : code[o + n]? = some code[o + n] := List.getElem?_eq_getElem (by omega)
    have hbyte := hblank (o + n) (by omega) (by omega) _ hx
    have hdrop : code.drop (o + n) = code[o + n] :: code.drop (o + n + 1) := List.drop_eq_getElem_cons (by omega)
    have hnext := h₁.step (by rw [hdrop, pieceLength_blank hbyte]; decide)
    rw [hdrop, pieceLength_blank hbyte, behind_blank hbyte] at hnext
    refine ⟨_, hnext, fun hfeed => ?_⟩
    have hne : code[o + n] ≠ Bytes.newline := fun heq => hfeed (o + n) (by omega) (by omega) (by rw [hx, heq])
    rw [if_neg hne, hk₁ fun i hi hlt => hfeed i hi (by omega)]

/-- **White space at the head of a line begins at a joint**: a line feed with nothing but white space between it and a
    joint is no part of a comment or literal. -/
theorem lineStart (h : Joint code k o) (hstart : i ≤ o)
    (hfeed : i = 0 ∨ code[i - 1]? = some Bytes.newline)
    (hblank : ∀ j, i ≤ j → j < o → ∀ b, code[j]? = some b → Bytes.isBlank b = true) : Joint code .line i := by
  -- there is no white space in a byte order mark
  have hmark : markStop code ≠ 0 → markStop code < i := by
    intro hne
    obtain ⟨hthree, rest, rfl⟩ := (markStop_cases code).resolve_left hne
    have hafter := h.markStop_le
    rw [hthree] at hafter ⊢
    rcases i with - | - | - | - | i
    · exact absurd (hblank 0 (Nat.le_refl 0) (by omega) 0xef rfl) (by decide)
    · exact absurd (hfeed.resolve_left (by decide)) (by simp [Bytes.newline])
    · exact absurd (hfeed.resolve_left (by decide)) (by simp [Bytes.newline])
    · exact absurd (hfeed.resolve_left (by decide)) (by simp [Bytes.newline])
    · omega
  rcases Nat.eq_zero_or_pos i with rfl | hpos
  · have hnone : markStop code = 0 := by
      by_contra hne
      exact absurd (hmark hne) (by omega)
    exact origin_of_markStop hnone
  · have hfeed := hfeed.resolve_left (by omega)
    obtain ⟨⟨k', o'⟩, hjoint, hle, hne, hin, hout⟩ :=
      Path.exists_piece (i := i - 1) h (by show markStop code ≤ i - 1; omega) (by show i - 1 < o; omega)
    have hjoint : Joint code k' o' := hjoint
    dsimp only at hle hne hin hout
    -- the last byte of a comment or literal would be white space
    have hlast : ∀ b, code[o' + pieceLength (code.drop o') - 1]? = some b → Bytes.isBlank b = false → False := by
      intro b hb hink
      rcases Nat.lt_or_ge (o' + pieceLength (code.drop o') - 1) i with hlt | hge
      · have heq : o' + pieceLength (code.drop o') - 1 = i - 1 := by omega
        rw [heq, hfeed] at hb
        cases hb
        cases hink
      · rw [hblank _ hge (by omega) b hb] at hink
        cases hink
    have hshift : ∀ j, (code.drop o')[j]? = code[o' + j]? := fun j => List.getElem?_drop
    rcases pieceLength_cases hne with hcomment | ⟨-, hframed, -⟩ | ⟨-, hone, b, rest, hdrop⟩
    · rw [hcomment] at hne
      obtain ⟨-, -, ⟨hline, -⟩ | hslash⟩ := commentLength_cases hne
      · refine absurd (List.mem_of_getElem? (i := i - 1 - o') ?_) hline
        rw [List.getElem?_take, if_pos (by omega), hshift, Nat.add_sub_cancel' hle, hfeed]
      · rw [hshift, ← hcomment, ← Nat.add_sub_assoc (by omega)] at hslash
        exact (hlast _ hslash (by decide)).elim
    · obtain ⟨y, hy, hgraph⟩ := hframed.last
      rw [hshift, ← Nat.add_sub_assoc (by omega)] at hy
      exact (hlast _ hy (isBlank_of_isGraph hgraph)).elim
    · have heq : o' = i - 1 := by omega
      subst heq
      have hb : b = Bytes.newline := by
        have hhead := hshift 0
        rw [hdrop, Nat.add_zero, hfeed] at hhead
        exact Option.some.inj hhead
      have hnext := hjoint.step hne
      rw [hone, hdrop, hb, behind_blank (by decide), if_pos rfl, Nat.sub_add_cancel hpos] at hnext
      exact hnext

/-! ### Tokens -/

/-- Behind a byte that begins no comment or literal and does not tell the mood. -/
theorem firm_one (h : Joint code k o) (hdrop : code.drop o = b :: rest) (hb : isSpecial b = false) :
    Joint code .firm (o + 1) := by
  simp only [isSpecial, Bool.or_eq_false_iff, beq_eq_false_iff_ne] at hb
  obtain ⟨⟨⟨⟨⟨⟨⟨⟨⟨hblank, hquote⟩, hback⟩, hrune⟩, hslash⟩, hparen⟩, hsemi⟩, hbrace⟩, hcolon⟩, hzero⟩ := hb
  have hcomment := commentLength_cons hslash rest
  have hone : pieceLength (b :: rest) = 1 := pieceLength_single hcomment ⟨hquote, hback, hrune⟩
  have hnext := h.step (by rw [hdrop, hone]; decide)
  have hfeed : b ≠ Bytes.newline := by
    rintro rfl
    cases hblank
  have hbehind : k.behind (b :: rest) = .firm := by
    simp [Mood.behind, hcomment, hfeed, hblank, hparen, hsemi, hbrace, hcolon, hzero]
  rwa [hdrop, hone, hbehind] at hnext

/-- **Bytes of names, numbers and most symbols are pieces of their own.** -/
theorem firm (h : Joint code k o) (hn : n ≠ 0) (hrun : Grammar.Run (fun b => isSpecial b = false) (code.drop o) n) :
    Joint code .firm (o + n) := by
  -- induction on the length; the byte before it is itself no special byte, or it is the first
  induction n with
  | zero => exact absurd rfl hn
  | succ n ih =>
    have hlength := hrun.le
    rw [List.length_drop] at hlength
    have hdrop : code.drop (o + n) = code[o + n] :: code.drop (o + n + 1) := List.drop_eq_getElem_cons (by omega)
    have hmark : isSpecial code[o + n] = false := by
      refine hrun.all _ (List.mem_of_getElem? (i := n) ?_)
      rw [List.getElem?_take, if_pos (Nat.lt_succ_self n), List.getElem?_drop, List.getElem?_eq_getElem (by omega)]
    have hbefore : ∃ k', Joint code k' (o + n) := by
      rcases Nat.eq_zero_or_pos n with rfl | hpos
      · exact ⟨k, h⟩
      · refine ⟨.firm, ih (by omega) ⟨Nat.le_of_succ_le hrun.le, fun b hb => hrun.all b ?_⟩⟩
        exact List.take_subset_take_left _ (Nat.le_succ n) hb
    obtain ⟨k', hbefore⟩ := hbefore
    exact hbefore.firm_one hdrop hmark

/-- There is no exposed joint among such bytes. -/
theorem le_of_firm (h : Joint code k o) (hrun : Grammar.Run (fun b => isSpecial b = false) (code.drop o) n)
    (h' : Joint code k' o') (hk' : k'.exposed = true) (hlt : o < o') : o + n ≤ o' := by
  by_contra hgt
  have hinner := h.firm (n := o' - o) (by omega)
    ⟨Nat.le_trans (by omega) hrun.le, fun b hb => hrun.all b (List.take_subset_take_left _ (by omega) hb)⟩
  rw [Nat.add_sub_cancel' (Nat.le_of_lt hlt)] at hinner
  rw [h'.unique hinner] at hk'
  cases hk'

end Joint

end Docsmith.Go
