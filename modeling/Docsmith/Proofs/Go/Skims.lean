import Docsmith.Proofs.Go.Pieces
import Docsmith.Proofs.Go.Regular

namespace Docsmith.Go

open Grammar

/-!
# White space and comments before a token

* `Skims`: what is skipped before a token, step by step, and `extras_skims`, `Skims.extras_eq`: it is what the reader
  skips when it has steps enough.
* `joint_blank`, `joint_comment`: white space and comments are pieces.
* `Mood.Skimmed`, `Skims.mood`: the mood behind white space and comments.
* `entry`: where the reader begins to skip.
* `Terminal.Finds`, `readTerminal_finds`: what reading a terminal comes to behind the white space and comments.
-/

/-- The place behind a byte order mark. -/
def entry (p : Place) : Place := p.advance (markLength p)

/-- White space and comments are skipped from one place to another, with or without line feeds. -/
inductive Skims (lines : Bool) : Place → List Node → Place → Prop
  | stop {p : Place}
      (hblank : ∀ b rest, p.rest = b :: rest → (Bytes.isBlank b && (lines || b != Bytes.newline)) = false)
      (hcode : commentLength p.rest = 0) : Skims lines p [] p
  | blank {p q : Place} {xs : List Node} {b : UInt8} {rest : Bytes} (hrest : p.rest = b :: rest)
      (hblank : (Bytes.isBlank b && (lines || b != Bytes.newline)) = true) (h : Skims lines (p.advance 1) xs q) :
      Skims lines p xs q
  | comment {p q : Place} {xs : List Node} (hcomment : commentLength p.rest ≠ 0)
      (h : Skims lines (p.advance (commentLength p.rest)) xs q) :
      Skims lines p (p.leaf "comment" true (commentLength p.rest) :: xs) q

variable {code : Bytes} {lines : Bool} {p q r : Place} {xs ys : List Node} {k k' : Mood} {steps o : Nat}

/-- With steps enough the reader skips all white space and comments. -/
theorem extras_skims (lines : Bool) (h : p.rest.length ≤ steps) :
    Skims lines p (extras lines steps p).1 (extras lines steps p).2 := by
  -- the steps suffice for the whole rest, so the reading ends by itself: at a token, or with the code
  induction steps generalizing p with
  | zero =>
    have hnil : p.rest = [] := List.eq_nil_of_length_eq_zero (by omega)
    exact .stop (fun b rest hrest => by rw [hnil] at hrest; cases hrest) (by rw [hnil]; rfl)
  | succ steps ih =>
    rw [extras]
    split
    · rename_i hnil
      exact .stop (fun b rest hrest => by rw [hnil] at hrest; cases hrest) (by rw [hnil]; rfl)
    · rename_i b rest hrest
      have hlength : p.rest.length = rest.length + 1 := by rw [hrest, List.length_cons]
      split
      · rename_i hblank
        exact .blank hrest hblank (ih (by rw [Place.rest_advance, List.length_drop]; omega))
      · rename_i hblank
        dsimp only
        split
        · rename_i hcode
          -- the byte is no blank and begins no comment, which is what stopping means
          refine .stop (fun b' rest' hrest' => ?_) (by simpa using hcode)
          rw [hrest] at hrest'
          cases hrest'
          simpa using hblank
        · rename_i hcomment
          rw [beq_iff_eq] at hcomment
          exact .comment hcomment (ih (by rw [Place.rest_advance, List.length_drop]; omega))

/-- What is skipped is what the reader skips. -/
theorem Skims.extras_eq (h : Skims lines p xs q) (hsteps : p.rest.length ≤ steps) :
    extras lines steps p = (xs, q) := by
  -- the other way round: what skims says is read step by step, and each step is one of the function's
  induction h generalizing steps with
  | @stop p hblank hcode =>
    cases steps with
    | zero => rfl
    | succ steps =>
      rw [extras]
      split
      · rfl
      · rename_i b rest hrest
        rw [if_neg (by rw [hblank b rest hrest]; decide), hcode]
        rfl
  | @blank p q xs b rest hrest hblank _ ih =>
    rw [hrest, List.length_cons] at hsteps
    obtain ⟨steps, rfl⟩ := Nat.exists_eq_succ_of_ne_zero (Nat.ne_of_gt (Nat.lt_of_lt_of_le (Nat.succ_pos _) hsteps))
    rw [extras]
    split
    · rename_i hnil
      rw [hrest] at hnil
      cases hnil
    · rename_i b' rest' hrest'
      rw [hrest] at hrest'
      cases hrest'
      rw [if_pos hblank]
      exact ih (by rw [Place.rest_advance, hrest, List.drop_succ_cons, List.drop_zero]; omega)
  | @comment p q xs hcomment _ ih =>
    obtain ⟨hle, -, -⟩ := commentLength_cases hcomment
    obtain ⟨steps, rfl⟩ := Nat.exists_eq_succ_of_ne_zero (show steps ≠ 0 by omega)
    rw [extras]
    split
    · rename_i hnil
      rw [hnil] at hcomment
      exact absurd rfl hcomment
    · rename_i b rest hrest
      -- a comment begins with a slash, so the function does not take it for a blank
      have hslash : b = 0x2f := by
        by_contra hne
        rw [hrest] at hcomment
        exact hcomment (commentLength_cons hne rest)
      rw [if_neg (by rw [hslash, show Bytes.isBlank 0x2f = false by decide]; simp)]
      dsimp only
      rw [if_neg (by simpa using hcomment), ih (by rw [Place.rest_advance, List.length_drop]; omega)]

theorem Skims.leads (h : Skims lines p xs q) : p.Leads q := by
  induction h with
  | stop => exact .refl _
  | @blank p q xs b rest hrest hblank _ ih => exact (Place.Leads.advance p 1).trans ih
  | @comment p q xs hcomment _ ih => exact (Place.Leads.advance p _).trans ih

/-- Skipping stops before code, or before a line feed. -/
theorem Skims.stops (h : Skims lines p xs q) : commentLength q.rest = 0 ∧ ∀ b rest, q.rest = b :: rest →
    Bytes.isBlank b = false ∨ lines = false ∧ b = Bytes.newline := by
  induction h with
  | stop hblank hcode =>
    refine ⟨hcode, fun b rest hrest => ?_⟩
    have hb := hblank b rest hrest
    simp only [Bool.and_eq_false_iff, Bool.or_eq_false_iff, bne_eq_false_iff_eq] at hb
    exact hb
  | blank _ _ _ ih => exact ih
  | comment _ _ ih => exact ih

/-- The mood behind white space and comments, when there was one before it: no statement comes under way, and the end
    of one is not undone. -/
structure Mood.Skimmed (lines : Bool) (k k' : Mood) : Prop where
  firm : k = .firm ∨ k' ≠ .firm
  exposed : k.exposed = true → k'.exposed = true
  same : lines = false → k.exposed = false → k' = k

theorem Mood.Skimmed.refl (lines : Bool) (k : Mood) : Mood.Skimmed lines k k :=
  ⟨(em (k = .firm)).imp id id, id, fun _ _ => rfl⟩

theorem Mood.Skimmed.trans {k₁ k₂ k₃ : Mood} (h : Skimmed lines k₁ k₂) (h' : Skimmed lines k₂ k₃) :
    Skimmed lines k₁ k₃ where
  firm := by
    rcases h.firm with h₁ | h₁
    · exact .inl h₁
    · exact .inr (h'.firm.resolve_left h₁)
  exposed hk := h'.exposed (h.exposed hk)
  same hlines hk := by
    have hk₂ := h.same hlines hk
    rw [h'.same hlines (by rwa [hk₂]), hk₂]

/-- Where a line feed is not skipped, the mood is not exposed behind what is skipped either. -/
theorem Mood.Skimmed.may {k k' : Mood} (h : k.Skimmed lines k') (hmay : lines = true ∨ k.exposed = false) :
    lines = true ∨ k'.exposed = false := by
  cases hlines : lines with
  | true => exact .inl rfl
  | false =>
    have hk := hmay.resolve_left (by rw [hlines]; decide)
    rw [h.same hlines hk]
    exact .inr hk

/-- White space is a piece, with a mood behind it. -/
theorem skimmed_blank {b : UInt8} (h : (Bytes.isBlank b && (lines || b != Bytes.newline)) = true) (k : Mood)
    (rest : Bytes) : k.Skimmed lines (k.behind (b :: rest)) := by
  obtain ⟨hblank, hfeed⟩ := Bool.and_eq_true_iff.mp h
  rw [behind_blank hblank]
  split
  · rename_i hb
    refine ⟨.inr (by decide), fun _ => rfl, fun hlines => ?_⟩
    rw [hlines, hb] at hfeed
    cases hfeed
  · exact .refl _ _

/-- So is a comment. -/
theorem skimmed_comment {bytes : Bytes} (h : commentLength bytes ≠ 0) (lines : Bool) (k : Mood) :
    k.Skimmed lines (k.behind bytes) := by
  rw [behind_comment h]
  split
  · rename_i hk
    refine ⟨.inr (by decide), fun _ => rfl, fun _ hexposed => ?_⟩
    rw [hk] at hexposed
    cases hexposed
  · exact .refl _ _

theorem pieceLength_comment {bytes : Bytes} (h : commentLength bytes ≠ 0) :
    pieceLength bytes = commentLength bytes := by
  cases bytes with
  | nil => exact absurd rfl h
  | cons b rest => exact if_pos (by simpa using h)

/-- Behind a byte of white space is a joint. -/
theorem joint_blank (hp : p.Within code) (hk : Joint code k p.offset) {b : UInt8} {rest : Bytes}
    (hrest : p.rest = b :: rest) (hblank : Bytes.isBlank b = true) :
    Joint code (k.behind (b :: rest)) (p.advance 1).offset := by
  have hpiece : pieceLength (code.drop p.offset) = 1 := by
    rw [← hp.rest, hrest]
    exact pieceLength_blank hblank rest
  have hnext := hk.step (by rw [hpiece]; decide)
  have hoffset : (p.advance 1).offset = p.offset + 1 := by
    rw [Place.offset_advance, hrest, List.length_cons]
    omega
  rwa [hpiece, ← hoffset, ← hp.rest, hrest] at hnext

/-- So is behind a comment. -/
theorem joint_comment (hp : p.Within code) (hk : Joint code k p.offset) (hcomment : commentLength p.rest ≠ 0) :
    Joint code (k.behind p.rest) (p.advance (commentLength p.rest)).offset := by
  have hpiece := pieceLength_comment hcomment
  have hnext := hk.step (by rw [← hp.rest, hpiece]; exact hcomment)
  have hoffset : (p.advance (commentLength p.rest)).offset = p.offset + commentLength p.rest := by
    rw [Place.offset_advance, Nat.min_eq_left (commentLength_cases hcomment).1]
  rwa [← hp.rest, hpiece, ← hoffset] at hnext

/-- **White space and comments lead from joint to joint.** -/
theorem Skims.mood (h : Skims lines p xs q) (hp : p.Within code) (hk : Joint code k p.offset) :
    ∃ k', Joint code k' q.offset ∧ k.Skimmed lines k' := by
  induction h generalizing k with
  | stop => exact ⟨k, hk, .refl _ _⟩
  | @blank p q xs b rest hrest hblank _ ih =>
    obtain ⟨k', hk', hskimmed⟩ := ih (hp.advance 1) (joint_blank hp hk hrest (Bool.and_eq_true_iff.mp hblank).1)
    exact ⟨k', hk', (skimmed_blank hblank k rest).trans hskimmed⟩
  | @comment p q xs hcomment _ ih =>
    obtain ⟨k', hk', hskimmed⟩ := ih (hp.advance _) (joint_comment hp hk hcomment)
    exact ⟨k', hk', (skimmed_comment hcomment lines k).trans hskimmed⟩

/-! ### Reading terminals -/

/-- Whether a line feed before the terminal ends the statement, so that it is not skipped. -/
def Terminal.sensitive (bound : Bool) (t : Terminal) : Bool :=
  match t.form with
  | .terminator => true
  | .sameLine => bound
  | _ => bound && t.continues

/-- What reading a terminal comes to behind the white space and comments: a token, or nothing. -/
inductive Terminal.Finds (t : Terminal) (s : State) (xs : List Node) (p : Place) :
    Option (List Node × State) → Prop
  | refused (h : t.form = .sameLine → p.rest = [] ∨ ∃ rest, p.rest = Bytes.newline :: rest)
      (h' : t.form = .finish → p.rest ≠ []) (h'' : ∀ kind named size, t.form.scan p.rest = some (kind, named, size) →
        size = 0) : t.Finds s xs p none
  | sameLine (h : t.form = .sameLine) {b : UInt8} {rest : Bytes} (hrest : p.rest = b :: rest)
      (hb : b ≠ Bytes.newline) : t.Finds s xs p (some ([], s))
  | finish (h : t.form = .finish) (hrest : p.rest = []) : t.Finds s xs p (some (xs, { s with place := p }))
  | token {kind : String} {named : Bool} {size : Nat} (h : t.form.scan p.rest = some (kind, named, size))
      (hsize : size ≠ 0) (trail : Trail) :
      t.Finds s xs p (some (xs ++ [p.leaf kind named size], ⟨p.advance size, trail⟩))

/-- **What reading a terminal comes to.** -/
theorem readTerminal_finds {bound : Bool} {t : Terminal} {s : State}
    (h : Skims (!t.sensitive bound) (entry s.place) xs p) (hs : s.place.Sane) :
    t.Finds s xs p (readTerminal bound t s).toOption := by
  have hsteps : (entry s.place).rest.length ≤ (entry s.place).limit := hs.leads (.advance _ _)
  have hextras := h.extras_eq hsteps
  obtain ⟨form, continues⟩ := t
  unfold readTerminal
  -- two forms look at the row itself; all others take a token where the comments stop
  cases form with
  | sameLine =>
    simp only [Terminal.sensitive] at hextras
    dsimp only
    unfold entry at hextras
    rw [hextras]
    dsimp only
    -- the form that stays on its line is refused at the end of the code and before a line feed
    cases hrest : p.rest with
    | nil => exact .refused (fun _ => .inl hrest) (fun h => by cases h) (fun _ _ _ h => by cases h)
    | cons b rest =>
      dsimp only
      split
      · rename_i hb
        refine .refused (fun _ => .inr ⟨rest, ?_⟩) (fun h => by cases h) (fun _ _ _ h => by cases h)
        rw [hrest, beq_iff_eq.mp hb]
      · rename_i hb
        exact .sameLine rfl hrest (by simpa using hb)
  | finish =>
    simp only [Terminal.sensitive] at hextras
    dsimp only
    unfold entry at hextras
    rw [hextras]
    dsimp only
    split
    · rename_i hempty
      exact .finish rfl (List.isEmpty_iff.mp hempty)
    · rename_i hempty
      exact .refused (fun h => by cases h) (fun _ hnil => hempty (by rw [hnil]; rfl)) (fun _ _ _ h => by cases h)
  | _ =>
    simp only [Terminal.sensitive, Bool.not_true] at hextras
    dsimp only
    unfold entry at hextras
    rw [hextras]
    dsimp only
    -- the token that was found must not be empty, or the terminal would loop
    split
    · rename_i kind named size hscan
      split
      · rename_i hsize
        refine .refused (fun h => by cases h) (fun h => by cases h) (fun kind' named' size' hscan' => ?_)
        dsimp only at hscan'
        rw [hscan] at hscan'
        cases hscan'
        simpa using hsize
      · rename_i hsize
        exact .token hscan (by simpa using hsize) _
    · rename_i hscan
      refine .refused (fun h => by cases h) (fun h => by cases h) (fun kind named size hscan' => ?_)
      dsimp only at hscan'
      rw [hscan] at hscan'
      cases hscan'

end Docsmith.Go
