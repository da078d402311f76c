import Docsmith.Proofs.Source.Whole
import Docsmith.Proofs.Text.Words
import Docsmith.Tokens

namespace Docsmith

/-!
# Edits that add no words

A source is read as bytes, or as the characters of a text.  Read either way, a deletion takes letters out of it,
and a word of visible bytes that replaces code takes the place of a letter.  However many of such edits are made
at once, and whatever they make meet, there are no more words than before.

* `Lettering`: a way to read bytes as letters, `Lettering.bytes` and `Lettering.chars`.
* `Edit.Turns`: what an edit does to the letters that it replaces, and `EditSet.render_turns`: so all edits do to
  those of a source.
* `Edit.Cuts`, `Edit.Tame`: deletions, and replacements by a word and some of what was there.
* `Bytes.NoMoreTokens`, `Bytes.Tamed`: a source has no more tokens, or words, than another.
* `EditSet.tamed_render`, `EditSet.shorter_render`: so it has after such edits, and no more characters when all of
  them are deletions.
-/

open Grammar Text

/-! ### Letters -/

/-- A way to read bytes as letters, some of which are white space.  Visible bytes are letters wherever they
    stand, and bytes fall apart wherever a text does. -/
structure Lettering (α : Type) where
  reads : Bytes → List α → Prop
  blank : α → Bool
  nil : reads [] []
  empty : ∀ {x}, reads x [] → x = []
  append : ∀ {x y as bs}, reads x as → reads y bs → reads (x ++ y) (as ++ bs)
  visible : ∀ {w : Bytes}, (∀ x ∈ w, isGraph x = true) → ∃ as, reads w as ∧ ∀ a ∈ as, blank a = false
  split : ∀ {code : Bytes} {all as : List α} {p i : Nat}, reads code all → code.Whole i → p ≤ i →
    reads (code.drop p) as → ∃ bs cs, as = bs ++ cs ∧ reads (code.slice p i) bs ∧ reads (code.drop i) cs
  first : ∀ {code : Bytes} {as : List α} {i : Nat}, code.Dark i → reads (code.drop i) as →
    ∃ a bs, as = a :: bs ∧ blank a = false

namespace Lettering

/-- What is left of a source falls apart at a later offset. -/
theorem drop_eq (code : Bytes) {p i : Nat} (h : p ≤ i) : code.drop p = code.slice p i ++ code.drop i := by
  rw [Bytes.slice_nat, List.drop_take]
  have hsplit := (List.take_append_drop (i - p) (code.drop p)).symm
  rwa [List.drop_drop, Nat.add_sub_cancel' h] at hsplit

/-- Each byte is a letter. -/
def bytes : Lettering UInt8 where
  reads x as := as = x
  blank := Bytes.isBlank
  nil := rfl
  empty h := h.symm
  append h h' := by rw [h, h']
  visible h := ⟨_, rfl, fun x hx => isBlank_of_isGraph (h x hx)⟩
  split _ _ hpi h := ⟨_, _, h.trans (drop_eq _ hpi), rfl, rfl⟩
  first := by
    rintro code as i ⟨a, rest, hdrop, hink, -⟩ rfl
    exact ⟨a, rest, hdrop, hink⟩

/-- Each character of a text is a letter. -/
def chars : Lettering Char where
  reads := Spells
  blank := isBlank
  nil := .nil
  empty h := by cases h; rfl
  append h h' := h.append h'
  visible {w} h := by
    refine ⟨_, .of_ascii fun x hx => Bytes.ascii_of_isGraph (h x hx), fun c hc => ?_⟩
    obtain ⟨x, hx, rfl⟩ := List.mem_map.mp hc
    exact Bytes.isBlank_ofNat_of_isGraph (h x hx)
  split {code all as p i} hall hwhole hpi h := by
    have hbyte : ∀ x ∈ (code.drop p)[i - p]?, isContinuation x = false := by
      rw [List.getElem?_drop, Nat.add_sub_cancel' hpi]
      exact hwhole all (decodeChars_eq_ok.mpr hall)
    obtain ⟨bs, cs, hsplit, hbs, hcs⟩ := h.split hbyte
    rw [List.drop_drop, Nat.add_sub_cancel' hpi] at hcs
    rw [← List.drop_take, ← Bytes.slice_nat] at hbs
    exact ⟨bs, cs, hsplit, hbs, hcs⟩
  first := by
    rintro code as i ⟨a, rest, hdrop, -, hink⟩ h
    rw [hdrop] at h
    obtain ⟨c, size, cs, hread, rfl, -⟩ := h.first
    exact ⟨_, cs, rfl, hink c size hread⟩

end Lettering

/-! ### Edits -/

section Turns

variable {α : Type} {r : Lettering α} {T : List α → List α → Prop} {code : Bytes} {all : List α}

/-- The letters that an edit puts in the place of others are related to these. -/
def Edit.Turns (r : Lettering α) (T : List α → List α → Prop) (code : Bytes) (e : Edit) : Prop :=
  ∃ a b : Nat, e.start = a ∧ e.stop = b ∧ code.Whole a ∧ ∀ as, r.reads (code.drop a) as →
    ∃ old left new, as = old ++ left ∧ r.reads (code.drop b) left ∧ r.reads e.text new ∧ T old new

variable (hrefl : ∀ as, T as as)
  (happend : ∀ {as as' bs bs'}, T as bs → T as' bs' → T (as ++ as') (bs ++ bs'))

include hrefl happend

/-- **What edits make of the letters behind an offset** is what each of them makes of those it replaces. -/
theorem Bytes.applyEdits_turns {edits : List Edit} (h : ∀ e ∈ edits, e.Turns r T code)
    (hall : r.reads code all) {pos : Nat} {as : List α} (has : r.reads (code.drop pos) as) :
    ∃ bs, r.reads (code.applyEdits pos edits) bs ∧ T as bs := by
  induction edits generalizing pos as with
  | nil =>
    rw [applyEdits, slice_nat, List.take_length]
    exact ⟨as, has, hrefl as⟩
  | cons e rest ih =>
    have hrest : ∀ x ∈ rest, x.Turns r T code := fun x hx => h x (List.mem_cons_of_mem e hx)
    obtain ⟨a, b, hstart, hstop, hwhole, hturn⟩ := h e List.mem_cons_self
    rw [applyEdits, hstart, hstop]
    split
    · exact ih hrest has
    · -- the letters before the edit stay, those in it are turned, and the others are left to the later edits
      obtain ⟨before, behind, rfl, hbefore, hbehind⟩ := r.split hall hwhole (by omega) has
      obtain ⟨old, left, new, rfl, hleft, hnew, hT⟩ := hturn behind hbehind
      obtain ⟨bs, hbs, hlater⟩ := ih hrest hleft
      exact ⟨before ++ new ++ bs, r.append (r.append hbefore hnew) hbs, by
        rw [List.append_assoc]
        exact happend (hrefl before) (happend hT hlater)⟩

theorem EditSet.render_turns {s : EditSet} (h : ∀ x ∈ s.entries, x.2.Turns r T code) (hall : r.reads code all) :
    ∃ bs, r.reads (s.render code) bs ∧ T all bs := by
  have hdrop : r.reads (code.drop 0) all := hall
  refine Bytes.applyEdits_turns hrefl happend (fun e he => ?_) hall hdrop
  obtain ⟨x, hx, rfl⟩ := List.mem_map.mp ((List.mergeSort_perm _ _).mem_iff.mp he)
  exact h x hx

end Turns

/-- The edit deletes code and cuts no character. -/
def Edit.Cuts (code : Bytes) (e : Edit) : Prop :=
  ∃ a b : Nat, a ≤ b ∧ code.Whole a ∧ code.Whole b ∧ e = ⟨a, b, []⟩

/-- The edit deletes code, or puts a word in its place and leaves the end of it.  It cuts no character, and the
    code begins with ink then. -/
def Edit.Tame (code : Bytes) (e : Edit) : Prop :=
  e.Cuts code ∨ ∃ a m b : Nat, ∃ w : Bytes, (a < m ∧ m ≤ b) ∧ code.Dark a ∧
    (code.Whole a ∧ code.Whole m ∧ code.Whole b) ∧ (∀ x ∈ w, isGraph x = true) ∧ e = ⟨a, b, w ++ code.slice m b⟩

/-- Code that begins with ink may be replaced by a word. -/
theorem Edit.tame_word {code w : Bytes} {a b : Nat} (hab : a < b) (hdark : code.Dark a)
    (hwhole : code.Whole a ∧ code.Whole b) (hw : ∀ x ∈ w, isGraph x = true) : Edit.Tame code ⟨a, b, w⟩ := by
  have hnone : code.slice b b = [] := by
    rw [Bytes.slice_nat]
    exact List.drop_eq_nil_of_le (List.length_take_le b code)
  refine .inr ⟨a, b, b, w, ⟨hab, Nat.le_refl b⟩, hdark, ⟨hwhole.1, hwhole.2, hwhole.2⟩, hw, ?_⟩
  rw [hnone, List.append_nil]

section Edits

variable {α : Type} {r : Lettering α} {code : Bytes} {all : List α} {e : Edit}

/-- A deletion takes letters out. -/
theorem Edit.Cuts.turns (h : e.Cuts code) (hall : r.reads code all) :
    e.Turns r (fun as bs => bs.Sublist as) code := by
  obtain ⟨a, b, hab, ha, hb, rfl⟩ := h
  refine ⟨a, b, rfl, rfl, ha, fun as has => ?_⟩
  obtain ⟨old, left, rfl, -, hleft⟩ := r.split hall hb hab has
  exact ⟨old, left, [], rfl, hleft, r.nil, List.nil_sublist old⟩

/-- A tame edit takes letters out, or puts a word in the place of one. -/
theorem Edit.Tame.turns (h : e.Tame code) (hall : r.reads code all) : e.Turns r (Tamer r.blank) code := by
  rcases h with hcuts | ⟨a, m, b, w, ⟨ham, hmb⟩, hdark, ⟨ha, hm, hb⟩, hw, rfl⟩
  · obtain ⟨a, b, hstart, hstop, ha, hturn⟩ := hcuts.turns hall
    refine ⟨a, b, hstart, hstop, ha, fun as has => ?_⟩
    obtain ⟨old, left, new, hsplit, hleft, hnew, hsub⟩ := hturn as has
    exact ⟨old, left, new, hsplit, hleft, hnew, .of_sublist hsub⟩
  · refine ⟨a, b, rfl, rfl, ha, fun as has => ?_⟩
    obtain ⟨c, cs, hfirst, hink⟩ := r.first hdark has
    obtain ⟨old, more, rfl, hold, hmore⟩ := r.split hall hm (Nat.le_of_lt ham) has
    obtain ⟨kept, left, rfl, hkept, hleft⟩ := r.split hall hb hmb hmore
    obtain ⟨ws, hws, hletters⟩ := r.visible hw
    refine ⟨old ++ kept, left, ws ++ kept, (List.append_assoc _ _ _).symm, hleft, r.append hws hkept, ?_⟩
    cases old with
    | nil =>
      -- the code before the end that stays is not empty
      obtain ⟨x, rest, hdrop, -⟩ := hdark
      have hslice := r.empty hold
      rw [Bytes.slice_nat, List.drop_take, hdrop, List.take_eq_nil_iff] at hslice
      rcases hslice with hzero | hnil
      · omega
      · cases hnil
    | cons d ds =>
      obtain ⟨rfl, -⟩ := List.cons.inj hfirst
      have hword : Tamer r.blank (d :: ds) (ws ++ []) := .word hink hletters (.of_sublist (List.nil_sublist ds))
      rw [List.append_nil] at hword
      exact hword.append (.of_sublist (List.Sublist.refl kept))

end Edits

/-! ### Sources -/

namespace Bytes

variable {code code' code'' : Bytes}

/-- The number of words of a source that need not be text: white space is that of ASCII. -/
def wordCount (code : Bytes) : Nat := wordStarts isBlank false code

/-- If one source is text, the other is text as well and has no more tokens. -/
def NoMoreTokens (tokenizer : Tokenizer) (code code' : Bytes) : Prop :=
  ∀ s, decode code = .ok s → ∃ s', decode code' = .ok s' ∧ tokenizer s' ≤ tokenizer s

theorem NoMoreTokens.refl (tokenizer : Tokenizer) (code : Bytes) : NoMoreTokens tokenizer code code :=
  fun s h => ⟨s, h, Nat.le_refl _⟩

theorem NoMoreTokens.trans {tokenizer : Tokenizer} (h : NoMoreTokens tokenizer code code')
    (h' : NoMoreTokens tokenizer code' code'') : NoMoreTokens tokenizer code code'' := by
  intro s hs
  obtain ⟨s', hs', hle⟩ := h s hs
  obtain ⟨s'', hs'', hle'⟩ := h' s' hs'
  exact ⟨s'', hs'', Nat.le_trans hle' hle⟩

/-- A source has no more words than another, and if that is text, it is text as well. -/
structure Tamed (code code' : Bytes) : Prop where
  bytes : wordCount code' ≤ wordCount code
  text : NoMoreTokens Tokenizer.words code code'

theorem Tamed.refl (code : Bytes) : Tamed code code := ⟨Nat.le_refl _, .refl _ code⟩

theorem Tamed.trans (h : Tamed code code') (h' : Tamed code' code'') : Tamed code code'' :=
  ⟨Nat.le_trans h'.bytes h.bytes, h.text.trans h'.text⟩

/-- The text of a source, by its characters. -/
theorem decode_eq_ok {s : String} : decode code = .ok s ↔ Spells code s.toList := by
  rw [decode, ← decodeChars_eq_ok]
  cases decodeChars code with
  | error fault =>
    constructor <;> rintro ⟨⟩
  | ok cs =>
    show Except.ok (String.ofList cs) = Except.ok s ↔ Except.ok cs = Except.ok s.toList
    rw [Except.ok.injEq, Except.ok.injEq]
    constructor
    · rintro rfl
      exact String.toList_ofList.symm
    · rintro rfl
      exact String.ofList_toList

end Bytes

namespace EditSet

variable {code : Bytes} {s : EditSet}

/-- **Tame edits add no words.** -/
theorem tamed_render (h : ∀ x ∈ s.entries, x.2.Tame code) : code.Tamed (s.render code) := by
  have hrender {α : Type} (r : Lettering α) {all : List α} (hall : r.reads code all) :
      ∃ bs, r.reads (s.render code) bs ∧ wordStarts r.blank false bs ≤ wordStarts r.blank false all := by
    obtain ⟨bs, hbs, htamer⟩ := render_turns (fun as => Tamer.of_sublist (List.Sublist.refl as)) Tamer.append
      (fun x hx => (h x hx).turns hall) hall
    exact ⟨bs, hbs, by simpa using htamer.wordStarts_le false false⟩
  constructor
  · obtain ⟨bs, rfl, hle⟩ := hrender Lettering.bytes (rfl : Lettering.bytes.reads code code)
    exact hle
  · intro text htext
    obtain ⟨cs, hcs, hle⟩ := hrender Lettering.chars (Bytes.decode_eq_ok.mp htext)
    refine ⟨String.ofList cs, Bytes.decode_eq_ok.mpr (by rwa [String.toList_ofList]), ?_⟩
    show (words _).length ≤ (words _).length
    rw [length_words, length_words, String.toList_ofList]
    exact hle

/-- **Deletions add no characters.** -/
theorem shorter_render (h : ∀ x ∈ s.entries, x.2.Cuts code) :
    code.NoMoreTokens Tokenizer.chars (s.render code) := by
  intro text htext
  have hall := Bytes.decode_eq_ok.mp htext
  obtain ⟨cs, hcs, hsub⟩ := render_turns (r := Lettering.chars) (T := fun as bs => bs.Sublist as)
    List.Sublist.refl (fun h h' => h.append h') (fun x hx => (h x hx).turns hall) hall
  refine ⟨String.ofList cs, Bytes.decode_eq_ok.mpr (by rwa [String.toList_ofList]), ?_⟩
  rw [Tokenizer.chars, String.length_ofList]
  exact hsub.length_le

end EditSet

end Docsmith
