import Docsmith.Proofs.Go.Lookahead
import Docsmith.Proofs.Go.Skims
import Docsmith.Proofs.Grammar.Moods

namespace Docsmith.Go

open Grammar

/-!
# Moods of the grammar of Go

Where a statement has ended, a further line feed is white space for all that may follow.  So whether the reader finds
itself behind the end of a statement must be the same for all the ways in which it may come there.  The grammar is
checked for this: its moods are followed from terminal to terminal.

* `Form.moods`, `Terminal.next`: the moods behind a terminal that is tried in a mood.
* `enter`, `leave`, `moods`: the moods before and behind the productions, and `moods_consistent`: the grammar keeps to
  them.
* `Crossed`, `Form.crosses`: behind a token is a joint, and inside of it no statement has ended.
* `Stands`, `readTerminal_reads`: a terminal is read between joints, and `readTerminal_mood`: it leads from a mood to
  one of those behind it.
-/

/-- The moods behind a symbol of one byte. -/
def byteMoods (k : Mood) (b : UInt8) : Finset Mood :=
  if b == 0x28 then {.fresh}
  else if b == 0x3b then if k = .firm then {.fresh, .calm} else {.calm}
  else if b == 0x7b || b == 0x3a then {.calm}
  else {.firm}

/-- The moods behind a symbol. -/
def textMoods (k : Mood) (t : String) : Finset Mood :=
  match Text.encode t with
  | [b] => byteMoods k b
  | _ => {.firm}

/-- All moods. -/
def Mood.all : Finset Mood := {.line, .fresh, .calm, .firm}

/-- The moods behind what a form finds, when it is tried in a mood. -/
def Form.moods (k : Mood) : Form → Finset Mood
  | .sameLine => {k}
  | .finish => Mood.all
  | .terminator => if k = .firm then {.line, .fresh} else {.line, .fresh, .calm}
  | .symbol accepted _ => accepted.foldr (fun t ks => textMoods k t ∪ ks) ∅
  | _ => {.firm}

/-- The moods behind a terminal that is tried in a mood.  Where a statement has ended, no terminal may be tried before
    which a line feed ends one. -/
def Terminal.next (bound : Bool) (t : Terminal) (k : Mood) : Option (Finset Mood) :=
  if (t.sensitive bound && k.exposed) || !t.form.clear then none else some (t.form.moods k)

/-- The moods in which the productions are tried. -/
def enter : Bool → Production → Finset Mood
  | _, .sourceFile => {.line, .fresh}
  | _, .statements | _, .fieldList | _, .interfaceBody => {.calm}
  | _, .topLevel | _, .statement | _, .declaration | _, .simple | _, .forStatement | _, .switchStatement
  | _, .selectStatement | true, .typeElement => {.line, .fresh, .calm}
  | true, .constSpec | true, .varSpec | true, .typeSpec | true, .importSpec => {.line, .fresh, .firm}
  | _, .caseClause | true, .block | true, .ifStatement | true, .expression false | true, .operand false
  | true, .type | true, .typeName => Mood.all
  | true, _ => {.firm}
  | false, _ => Mood.all

/-- The moods behind the productions. -/
def leave : Production → Finset Mood
  | .statement => {.calm, .firm}
  | .sourceFile | .statements | .caseClause | .fieldList | .interfaceBody => Mood.all
  | _ => {.firm}

/-- The moods of the grammar. -/
def moods : Moods Terminal Production Bool Mood := ⟨Terminal.next, enter, fun _ => leave⟩

/-- **The grammar keeps to its moods.** -/
theorem moods_consistent : moods.Consistent table := by
  intro m p
  cases m <;> cases p
  all_goals first | decide +kernel | (rename_i header; cases header <;> decide +kernel)

variable {code : Bytes} {bound : Bool} {t : Terminal} {form : Form} {p : Place} {s s' : State} {xs : List Node}
  {k k' : Mood} {ks : Finset Mood} {o n size : Nat} {b : UInt8} {rest : Bytes}

theorem next_spec (h : t.next bound k = some ks) :
    t.form.clear = true ∧ ks = t.form.moods k ∧ (t.sensitive bound = true → k.exposed = false) := by
  unfold Terminal.next at h
  split at h
  · cases h
  · rename_i hmay
    cases h
    simp only [Bool.or_eq_true, Bool.and_eq_true, Bool.not_eq_true', not_or, not_and, Bool.not_eq_true,
      Bool.not_eq_false] at hmay
    exact ⟨hmay.2, rfl, hmay.1⟩

/-! ### Tokens -/

/-- Behind a token is a joint with some mood, and no statement ends inside of it. -/
structure Crossed (code : Bytes) (o size : Nat) (k : Mood) : Prop where
  joint : Joint code k (o + size)
  barrier : ∀ {k' o'}, Joint code k' o' → k'.exposed = true → o < o' → o + size ≤ o'

/-- A token is a piece of the source. -/
theorem crossed_piece (h : Joint code k o) (hn : pieceLength (code.drop o) ≠ 0) :
    Crossed code o (pieceLength (code.drop o)) (k.behind (code.drop o)) :=
  ⟨h.step hn, fun h' _ hlt => (h.piece_le h' hlt).2⟩

/-- A token is made up of bytes that are pieces and do not tell the mood. -/
theorem crossed_run (h : Joint code k o) (hn : n ≠ 0)
    (hrun : Grammar.Run (fun b => isSpecial b = false) (code.drop o) n) : Crossed code o n .firm :=
  ⟨h.firm hn hrun, fun h' hexposed hlt => h.le_of_firm hrun h' hexposed hlt⟩

theorem isSpecial_of_isNumeral (h : isNumeral b = true) : isSpecial b = false := by
  have hne {c : UInt8} (hc : isNumeral c = false) : b ≠ c := by
    rintro rfl
    rw [h] at hc
    cases hc
  simp [isSpecial, isBlank_of_isGraph (isGraph_of_isNumeral h), hne (c := 0x22) (by decide),
    hne (c := 0x60) (by decide), hne (c := 0x27) (by decide), hne (c := 0x2f) (by decide), hne (c := 0x28) (by decide),
    hne (c := 0x3b) (by decide), hne (c := 0x7b) (by decide), hne (c := 0x3a) (by decide), hne (c := 0) (by decide)]

theorem isSpecial_of_isNameByte (h : isNameByte b = true) : isSpecial b = false := by
  have hne {c : UInt8} (hc : isNameByte c = false) : b ≠ c := by
    rintro rfl
    rw [h] at hc
    cases hc
  simp [isSpecial, isBlank_of_isNameByte h, hne (c := 0x22) (by decide +kernel), hne (c := 0x60) (by decide +kernel),
    hne (c := 0x27) (by decide +kernel), hne (c := 0x2f) (by decide +kernel), hne (c := 0x28) (by decide +kernel),
    hne (c := 0x3b) (by decide +kernel), hne (c := 0x7b) (by decide +kernel), hne (c := 0x3a) (by decide +kernel),
    hne (c := 0) (by decide +kernel)]

/-- The mood behind a literal in quotes. -/
theorem behind_quote (hcode : commentLength (b :: rest) = 0) (hb : b = 0x22 ∨ b = 0x60 ∨ b = 0x27) (k : Mood) :
    k.behind (b :: rest) = .firm := by
  rw [Mood.behind, hcode]
  rcases hb with rfl | rfl | rfl <;> simp [Bytes.newline, Bytes.isBlank]

/-- The mood behind a byte of code is one of those behind the symbol. -/
theorem behind_mem_byteMoods (hcode : commentLength (b :: rest) = 0) (hblank : Bytes.isBlank b = false) (hb : b ≠ 0)
    (k : Mood) : k.behind (b :: rest) ∈ byteMoods k b := by
  have hfeed : b ≠ Bytes.newline := by
    rintro rfl
    cases hblank
  simp only [Mood.behind, hcode, bne_self_eq_false, Bool.false_eq_true, if_false, beq_iff_eq, hfeed, hblank, hb,
    Bool.or_eq_true, or_false, byteMoods]
  split_ifs <;> simp

/-- **Behind a symbol is a joint**, and no statement ends inside of it. -/
theorem crossed_symbol (h : Joint code k o) (hcode : commentLength (code.drop o) = 0) {text : String}
    (htext : isSymbolText text = true) (hstarts : startsWith (Text.encode text) (code.drop o) = true) :
    ∃ k', Crossed code o (Text.encode text).length k' ∧ k' ∈ textMoods k text := by
  unfold isSymbolText at htext
  unfold textMoods
  split at htext
  · cases htext
  · rename_i b rest hencode
    rw [hencode] at hstarts ⊢
    simp only [Bool.and_eq_true, Bool.or_eq_true, Bool.not_eq_true', bne_iff_ne] at htext
    obtain ⟨⟨⟨⟨⟨⟨hblank, h₁⟩, h₂⟩, h₃⟩, hzero⟩, -⟩, hrest⟩ := htext
    have htake := take_of_startsWith hstarts
    obtain ⟨more, hdrop⟩ : ∃ more, code.drop o = b :: more := by
      cases hdrop : code.drop o with
      | nil => rw [hdrop] at htake; simp at htake
      | cons c more =>
        rw [hdrop, List.length_cons, List.take_succ_cons, List.cons.injEq] at htake
        exact ⟨more, by rw [htake.1]⟩
    have hpiece : pieceLength (code.drop o) = 1 := by
      rw [hdrop] at hcode ⊢
      exact pieceLength_single hcode ⟨h₁, h₂, h₃⟩
    have hfirst := crossed_piece h (by rw [hpiece]; decide)
    have hmood : k.behind (code.drop o) ∈ byteMoods k b := by
      rw [hdrop] at hcode ⊢
      exact behind_mem_byteMoods hcode hblank hzero k
    rw [hpiece] at hfirst
    cases rest with
    | nil => exact ⟨_, hfirst, hmood⟩
    | cons c rest =>
      obtain ⟨hstop, hrest⟩ := hrest.resolve_left (by simp)
      -- the first byte ends no statement, and the others are pieces of their own
      have hrun : Grammar.Run (fun b => isSpecial b = false) (code.drop (o + 1)) (rest.length + 1) := by
        have hafter : (code.drop (o + 1)).take (rest.length + 1) = c :: rest := by
          rw [hdrop, List.length_cons, List.take_succ_cons, List.cons.injEq] at htake
          rw [← List.drop_drop, hdrop]
          exact htake.2
        refine ⟨?_, fun x hx => ?_⟩
        · have hlength := congrArg List.length hafter
          rw [List.length_take, List.length_cons] at hlength
          omega
        · rw [hafter] at hx
          simpa using List.all_eq_true.mp hrest x hx
      have hsecond := crossed_run hfirst.joint (Nat.succ_ne_zero _) hrun
      have hlength : o + (b :: c :: rest).length = o + 1 + (rest.length + 1) := by
        rw [List.length_cons, List.length_cons]
        omega
      refine ⟨.firm, ⟨by rw [hlength]; exact hsecond.joint, fun {k' o'} h' hexposed hlt => ?_⟩, ?_⟩
      · rw [hlength]
        refine hsecond.barrier h' hexposed (Nat.lt_of_le_of_ne hlt ?_)
        rintro rfl
        rw [h'.unique hfirst.joint] at hexposed
        simp only [isStop, Bool.or_eq_false_iff] at hstop
        simp only [byteMoods, hstop, Bool.false_eq_true, if_false] at hmood
        split at hmood <;> rw [Finset.mem_singleton.mp hmood] at hexposed <;> cases hexposed
      · simp

/-- The size of a symbol. -/
theorem utf8ByteSize_of_isSymbolText {text : String} (h : isSymbolText text = true) :
    text.utf8ByteSize = (Text.encode text).length := by
  unfold isSymbolText at h
  split at h
  · cases h
  · rename_i b rest hencode
    simp only [Bool.and_eq_true, beq_iff_eq] at h
    rw [hencode, List.length_cons, h.1.2]

/-- The moods behind a symbol are among those behind the form that accepts it. -/
theorem mem_moods_symbol {text : String} {accepted rivals : List String} (htext : text ∈ accepted)
    (hk : k' ∈ textMoods k text) : k' ∈ (Form.symbol accepted rivals).moods k := by
  rw [Form.moods]
  induction accepted with
  | nil => cases htext
  | cons t accepted ih =>
    rw [List.foldr_cons, Finset.mem_union]
    rcases List.mem_cons.mp htext with rfl | htext
    · exact .inl hk
    · exact .inr (ih htext)

/-- Behind a literal that begins with a quote of its own kind a statement is under way. -/
theorem crossed_quote {length : Bytes → Nat} {q : UInt8} (h : Joint code k o)
    (hcode : commentLength (code.drop o) = 0) (hq : q = 0x22 ∨ q = 0x60 ∨ q = 0x27)
    (hnone : ∀ b rest, b ≠ q → length (b :: rest) = 0) (hnil : length [] = 0)
    (hpiece : ∀ rest, commentLength (q :: rest) = 0 → pieceLength (q :: rest) = length (q :: rest))
    (hsize : length (code.drop o) ≠ 0) : Crossed code o (length (code.drop o)) .firm := by
  cases hdrop : code.drop o with
  | nil => rw [hdrop, hnil] at hsize; exact absurd rfl hsize
  | cons b rest =>
    by_cases hb : b = q
    · -- the literal is a piece
      subst hb
      rw [hdrop] at hcode hsize
      have hlength := hpiece rest hcode
      have hcross := crossed_piece h (by rw [hdrop, hlength]; exact hsize)
      rwa [hdrop, hlength, behind_quote hcode hq] at hcross
    · rw [hdrop, hnone b rest hb] at hsize
      exact absurd rfl hsize

/-- A terminator is a byte that is a piece. -/
theorem crossed_terminator {kind : String} {named : Bool} (h : Joint code k o)
    (hcode : commentLength (code.drop o) = 0)
    (hscan : Form.terminator.scan (code.drop o) = some (kind, named, size)) :
    ∃ k' ∈ Form.terminator.moods k, Crossed code o size k' := by
  cases hdrop : code.drop o with
  | nil => rw [hdrop] at hscan; cases hscan
  | cons b rest =>
    rw [hdrop] at hscan hcode
    -- a statement ends at a line feed, a semicolon or the end of the file
    obtain ⟨rfl, hb⟩ : size = 1 ∧ (b = Bytes.newline ∨ b = 0x3b ∨ b = 0) := by
      simp only [Form.scan] at hscan
      split_ifs at hscan with hfeed hsemicolon hzero
      · cases hscan
        exact ⟨rfl, .inl (beq_iff_eq.mp hfeed)⟩
      · cases hscan
        exact ⟨rfl, .inr (.inl (beq_iff_eq.mp hsemicolon))⟩
      · cases hscan
        exact ⟨rfl, .inr (.inr (beq_iff_eq.mp hzero))⟩
    -- a piece of one byte, whose mood only depends on the byte
    have hpiece := pieceLength_stop (b := b) (by rcases hb with rfl | rfl | rfl <;> decide) rest
    have hcross := crossed_piece h (by rw [hdrop, hpiece]; decide)
    rw [hdrop, hpiece] at hcross
    refine ⟨_, ?_, hcross⟩
    rw [Form.moods, Mood.behind, hcode]
    rcases hb with rfl | rfl | rfl <;> cases k <;> decide

/-- **Behind what a form finds is a joint**, with one of the moods behind the form. -/
theorem Form.crosses {kind : String} {named : Bool} (hclear : form.clear = true) (h : Joint code k o)
    (hcode : commentLength (code.drop o) = 0) (hscan : form.scan (code.drop o) = some (kind, named, size))
    (hsize : size ≠ 0) : ∃ k' ∈ form.moods k, Crossed code o size k' := by
  -- names, numbers and literals leave a statement under way
  have hfirm (hmoods : form.moods k = {.firm}) (hcross : Crossed code o size .firm) :
      ∃ k' ∈ form.moods k, Crossed code o size k' := ⟨.firm, by rw [hmoods]; simp, hcross⟩
  have hname (hn : nameLength (code.drop o) = size) : Crossed code o size .firm := by
    subst hn
    exact crossed_run h hsize ((named_name _).mono fun _ => isSpecial_of_isNameByte)
  cases form with
  | word text =>
    simp only [scan] at hscan
    split at hscan
    · cases hscan
      exact hfirm rfl (hname rfl)
    · cases hscan
  | name kind reserved =>
    simp only [scan] at hscan
    split at hscan
    · cases hscan
      exact hfirm rfl (hname rfl)
    · cases hscan
  | symbol accepted rivals =>
    simp only [scan] at hscan
    split at hscan
    · rename_i text hlongest
      split at hscan
      · rename_i hmem
        cases hscan
        have hmem := List.contains_iff_mem.mp hmem
        have htext : isSymbolText kind = true := List.all_eq_true.mp hclear kind (List.mem_append_left _ hmem)
        obtain ⟨k', hcross, hk'⟩ := crossed_symbol h hcode htext (startsWith_of_longestOf hlongest)
        rw [utf8ByteSize_of_isSymbolText htext]
        exact ⟨k', mem_moods_symbol hmem hk', hcross⟩
      · cases hscan
    · cases hscan
  | number =>
    cases hscan
    exact hfirm rfl (crossed_run h hsize ((numeral_number _).mono fun _ => isSpecial_of_isNumeral))
  | string =>
    cases hscan
    refine hfirm rfl (crossed_quote h hcode (.inl rfl) (fun b rest hb => ?_) rfl (fun rest hcode => ?_) hsize)
    · simp [stringLength, hb]
    · simp [pieceLength, hcode]
  | raw =>
    cases hscan
    refine hfirm rfl (crossed_quote h hcode (.inr (.inl rfl)) (fun b rest hb => ?_) rfl (fun rest hcode => ?_) hsize)
    · simp [rawLength, hb]
    · simp [pieceLength, hcode]
  | rune =>
    cases hscan
    refine hfirm rfl (crossed_quote h hcode (.inr (.inr rfl)) (fun b rest hb => ?_) rfl (fun rest hcode => ?_) hsize)
    · cases rest <;> simp [runeLength, hb]
    · simp [pieceLength, hcode]
  | terminator => exact crossed_terminator h hcode hscan
  | sameLine => cases hscan
  | finish => cases hscan

/-! ### Terminals -/

/-- White space and comments before a form do not add to the moods behind it. -/
theorem moods_subset_of_skimmed {lines : Bool} (h : k.Skimmed lines k') (hcode : form ≠ .sameLine)
    (hsame : form = .terminator → k' = k) : form.moods k' ⊆ form.moods k := by
  cases form with
  | terminator => rw [hsame rfl]
  | symbol accepted rivals =>
    have htext (t : String) : textMoods k' t ⊆ textMoods k t := by
      unfold textMoods
      split
      · -- only a semicolon depends on the mood before it
        unfold byteMoods
        rcases h.firm with hk | hk' <;> split_ifs <;> decide
      · rfl
    clear hsame hcode
    intro x hx
    rw [Form.moods] at hx ⊢
    induction accepted with
    | nil => exact hx
    | cons t accepted ih =>
      rw [List.foldr_cons, Finset.mem_union] at hx ⊢
      exact hx.imp (htext t ·) ih
  | sameLine => exact absurd rfl hcode
  | _ => rfl

/-- The state stands at a joint with a mood, behind a byte order mark. -/
structure Stands (code : Bytes) (k : Mood) (s : State) : Prop where
  joint : Joint code k (entry s.place).offset
  within : s.place.Within code
  sane : s.place.Sane

theorem entry_eq (h : p.offset ≠ 0 ∨ p.rest = []) : entry p = p := by
  have hzero : markLength p = 0 := by
    rw [markLength, if_neg]
    rw [Bool.and_eq_true, beq_iff_eq, not_and]
    intro hoffset
    rw [h.resolve_left (not_not.mpr hoffset)]
    exact Bool.false_ne_true
  rw [entry, hzero, Place.advance]

theorem offset_entry_origin (code : Bytes) : (entry (.origin code)).offset = markStop code := by
  rw [entry, Place.offset_advance]
  show 0 + min (markStop code) code.length = markStop code
  rw [Nat.min_eq_left (markStop_le_length code), Nat.zero_add]

/-- The beginning of a source. -/
theorem stands_origin (code : Bytes) : Stands code (.first code) { place := .origin code } where
  joint := by
    show Joint code (.first code) (entry (.origin code)).offset
    rw [offset_entry_origin]
    exact .origin code
  within := .origin code
  sane := Place.sane_origin code

/-- The white space and comments before a token are skipped, up to a joint at which no comment begins. -/
structure Passed (code : Bytes) (lines : Bool) (k : Mood) (s : State) (ys : List Node) (p : Place) (k' : Mood) :
    Prop where
  skims : Skims lines (entry s.place) ys p
  within : p.Within code
  joint : Joint code k' p.offset
  skimmed : k.Skimmed lines k'
  bare : commentLength (code.drop p.offset) = 0

/-- What a terminal is read as, between joints. -/
inductive Terminal.Reads (code : Bytes) (bound : Bool) (t : Terminal) (k : Mood) (s : State) : List Node → State → Prop
  | sameLine (hform : t.form = .sameLine) : t.Reads code bound k s [] s
  | finish {ys : List Node} {p : Place} {k' : Mood} {trail : Trail} (hform : t.form = .finish)
      (h : Passed code (!t.sensitive bound) k s ys p k') (hstands : Stands code k' ⟨p, trail⟩) :
      t.Reads code bound k s ys ⟨p, trail⟩
  | token {ys : List Node} {p : Place} {k₁ k' : Mood} {kind : String} {named : Bool} {size : Nat} {trail : Trail}
      (h : Passed code (!t.sensitive bound) k s ys p k₁)
      (hscan : t.form.scan (code.drop p.offset) = some (kind, named, size)) (hsize : size ≠ 0)
      (hmood : k' ∈ t.form.moods k₁) (hcross : Crossed code p.offset size k')
      (hstands : Stands code k' ⟨p.advance size, trail⟩) :
      t.Reads code bound k s (ys ++ [p.leaf kind named size]) ⟨p.advance size, trail⟩

/-- **Terminals are read between joints.** -/
theorem readTerminal_reads (h : readTerminal bound t s = .ok (xs, s')) (hclear : t.form.clear = true)
    (hs : Stands code k s) : t.Reads code bound k s xs s' := by
  have hwithin : s'.place.Within code := hs.within.leads (readTerminal_leads h)
  have hsane : s'.place.Sane := hs.sane.leads (readTerminal_leads h)
  have hentry : (entry s.place).Within code := hs.within.advance _
  have hsteps : (entry s.place).rest.length ≤ (entry s.place).limit := hs.sane.leads (.advance _ _)
  have hskims := extras_skims (!t.sensitive bound) hsteps
  have hfinds := readTerminal_finds hskims hs.sane
  obtain ⟨k₁, hk₁, hskimmed⟩ := hskims.mood hentry hs.joint
  have hp := hentry.leads hskims.leads
  have hcode := hskims.stops.1
  rw [h] at hfinds
  generalize (extras (!t.sensitive bound) (entry s.place).limit (entry s.place)).1 = ys at *
  generalize (extras (!t.sensitive bound) (entry s.place).limit (entry s.place)).2 = p at *
  rw [hp.rest] at hcode
  -- what the terminal passed over before its token is the same in all three ways to read
  have hpassed : Passed code (!t.sensitive bound) k s ys p k₁ := ⟨hskims, hp, hk₁, hskimmed, hcode⟩
  -- the code may end, the terminal may leave the line as it is, or it takes a token
  cases hfinds with
  | sameLine hform => exact .sameLine hform
  | finish hform hrest =>
    refine .finish hform hpassed ⟨?_, hwithin, hsane⟩
    show Joint code k₁ (entry p).offset
    rwa [entry_eq (.inr hrest)]
  | @token kind named size hscan hsize trail =>
    rw [hp.rest] at hscan
    obtain ⟨k', hk', hcross⟩ := Form.crosses hclear hk₁ hcode hscan hsize
    refine .token hpassed hscan hsize hk' hcross ⟨?_, hwithin, hsane⟩
    -- the piece lies inside the code, so the token's end is reckoned from its start
    have hoffset : (p.advance size).offset = p.offset + size := by
      have hle := hcross.joint.le_length
      rw [Place.offset_advance, hp.length_rest, Nat.min_eq_left (by omega)]
    show Joint code k' (entry (p.advance size)).offset
    rw [entry_eq (.inl (by omega)), hoffset]
    exact hcross.joint

/-- **A terminal leads from a mood to one of those behind it.** -/
theorem readTerminal_mood (h : readTerminal bound t s = .ok (xs, s')) (hnext : t.next bound k = some ks)
    (hs : Stands code k s) : ∃ k' ∈ ks, Stands code k' s' := by
  obtain ⟨hclear, rfl, hmay⟩ := next_spec hnext
  cases readTerminal_reads h hclear hs with
  | sameLine hform => exact ⟨k, by rw [hform]; simp [Form.moods], hs⟩
  | @finish _ _ k' _ hform _ hstands => exact ⟨k', by rw [hform, Form.moods, Mood.all]; cases k' <;> decide, hstands⟩
  | @token _ _ k₁ k' _ _ _ _ hpassed hscan _ hmood _ hstands =>
    refine ⟨k', moods_subset_of_skimmed hpassed.skimmed (fun hform => ?_) (fun hform => ?_) hmood, hstands⟩
    · rw [hform] at hscan
      cases hscan
    · have hsensitive : t.sensitive bound = true := by rw [Terminal.sensitive, hform]
      exact hpassed.skimmed.same (by rw [hsensitive]; rfl) (hmay hsensitive)

end Docsmith.Go
