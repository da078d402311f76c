import Docsmith.Proofs.Go.Inserted
import Docsmith.Proofs.Go.Kin
import Docsmith.Proofs.Text.Paragraphs

namespace Docsmith.Go

open Grammar Text

/-!
# Comments set on declarations

The edits that set a text on declarations without documentation insert line comments in front of them, if the
comments stand in front of what they are on.

* `Sayable`: the texts that can be set, and `renderLine_notes`: they are rendered as line comments.
* `insertion`: an edit as an insertion in front of the first code behind it.
* `Fits`, `fits_of_sited`: what is rendered takes the place of white space.
* `Telling`: an edit that sets a text on a declaration.
* `Closed`: all comments of a source are closed.
* `notes_of_edits`: such edits insert comments.
* `declarations_of_edits`: with them the source is parsed and declares the same, and what they are on is documented.
-/

variable {t : SourceTree} {top n : Node} {d : Declaration} {text : String}

/-- The text says something, and it has no character that ends a source. -/
structure Sayable (text : String) : Prop where
  said : isBlankText text = false
  whole : '\x00' ∉ text.toList

instance (text : String) : Decidable (Sayable text) :=
  decidable_of_iff (isBlankText text = false ∧ '\x00' ∉ text.toList)
    ⟨fun ⟨h₁, h₂⟩ => ⟨h₁, h₂⟩, fun ⟨h₁, h₂⟩ => ⟨h₁, h₂⟩⟩

/-! ### Comments as bytes -/

/-- The characters of filled lines are spaces and such of the text. -/
theorem mem_of_mem_wrapChars {width : Nat} {cs line : List Char} {c : Char} (hline : line ∈ wrapChars width cs)
    (hc : c ∈ line) : c = ' ' ∨ c ∈ cs := by
  rcases mem_separateGroups line hline with rfl | ⟨g, hg, hmem⟩
  · cases hc
  · obtain ⟨ws, hws, rfl⟩ := List.mem_map.mp hg
    -- a word of a paragraph is a word of the text, whichever paragraph it stands in
    have hword {w : List Char} (hw : w ∈ ws) (hc : c ∈ w) : c ∈ cs := by
      obtain ⟨ps, hparted⟩ := exists_parted cs
      rw [paragraphWords_eq hparted] at hws
      obtain ⟨p, hp, rfl⟩ := List.mem_map.mp hws
      have hall : w ∈ wordsOf cs := by
        rw [hparted.words]
        exact List.mem_flatMap.mpr ⟨p, hp, hw⟩
      exact (mem_wordsOf_iff.mp ⟨w, hall, hc⟩).1
    -- a filled line is made of words and of the single blanks between them
    cases ws with
    | nil => cases hmem
    | cons w ws =>
      rcases mem_fillFrom width w ws line hmem c hc with hw | rfl | ⟨v, hv, hcv⟩
      · exact .inr (hword List.mem_cons_self hw)
      · exact .inl rfl
      · exact .inr (hword (List.mem_cons_of_mem _ hv) hcv)

/-- Only a character of ASCII is encoded with its byte. -/
theorem ascii_mem_utf8EncodeChar {c : Char} {b : UInt8} (h : b ∈ String.utf8EncodeChar c) (hb : b.toNat < 128) :
    c.val.toNat = b.toNat := by
  have hbyte : ∃ x ∈ String.utf8EncodeChar c, x.toNat = b.toNat := ⟨_, h, rfl⟩
  generalize b.toNat = a at hb hbyte
  have hval : c.toNat = c.val.toNat := rfl
  unfold String.utf8EncodeChar at hbyte
  dsimp only at hbyte
  split at hbyte
  · simp at hbyte
    omega
  · split at hbyte
    · simp at hbyte
      omega
    · split at hbyte <;> (simp at hbyte; omega)

theorem zero_not_mem_encodeChars {cs : List Char} (h : '\x00' ∉ cs) : 0 ∉ encodeChars cs := by
  intro hmem
  obtain ⟨c, hc, hbyte⟩ := List.mem_flatMap.mp hmem
  have hcode : c.val.toNat = ('\x00' : Char).val.toNat := ascii_mem_utf8EncodeChar hbyte (by decide)
  exact h (Char.ext (UInt32.toNat_inj.mp hcode) ▸ hc)

/-- A commented line is a line comment on a line of its own. -/
theorem noteRows_lineComment {indent : List Char} (hindent : Bytes.blank (encodeChars indent) = true)
    {lines : List (List Char)} (hlines : lines ≠ [])
    (hplain : ∀ line ∈ lines, '\n' ∉ line ∧ '\x00' ∉ line) :
    NoteRows (encodeChars (Doc.lineComment "//".toList indent lines)) := by
  -- a written line is the indent, the mark and, where it is not empty, a blank before the text
  have hrow (line : List Char) : encodeChars (Doc.commentLine "//".toList indent line ++ ['\n'])
      = noteRow (encodeChars indent) (encodeChars (if line.isEmpty then [] else ' ' :: line)) := by
    rw [Doc.commentLine_eq, encodeChars_append, encodeChars_append, encodeChars_append, noteRow, List.append_assoc,
      List.append_assoc]
    rfl
  have hbody {line : List Char} (hline : '\n' ∉ line ∧ '\x00' ∉ line) :
      Bytes.newline ∉ encodeChars (if line.isEmpty then [] else ' ' :: line) ∧
        0 ∉ encodeChars (if line.isEmpty then [] else ' ' :: line) := by
    split
    · exact ⟨List.not_mem_nil, List.not_mem_nil⟩
    · refine ⟨newline_not_mem_encodeChars ?_, zero_not_mem_encodeChars ?_⟩ <;> simp [hline]
  induction lines with
  | nil => exact absurd rfl hlines
  | cons line lines ih =>
    obtain ⟨hline, hrest⟩ := List.forall_mem_cons.mp hplain
    rw [Doc.lineComment, List.flatMap_cons, encodeChars_append, hrow]
    -- the last line ends the rows; the lines before it are rows of their own
    cases lines with
    | nil =>
      rw [List.flatMap_nil]
      show NoteRows (noteRow _ _ ++ [])
      rw [List.append_nil]
      exact .last hindent (hbody hline)
    | cons line' lines => exact .cons hindent (hbody hline) (ih (by simp) hrest)

/-- What is rendered for a slot is comments. -/
theorem renderLine_notes {slot : DocSlot} (hslot : Indented slot) (htext : Sayable text) : ∃ rows, NoteRows rows ∧
    slot.renderLine "//" text = if slot.inline then Bytes.newline :: (rows ++ encode slot.indent) else rows := by
  -- the text is not blank, so it has a word and the wrapping has a line
  obtain ⟨c, hc, hdark⟩ : ∃ c ∈ text.toList, Text.isBlank c = false := by simpa [isBlankText] using htext.said
  have hrows : NoteRows (encodeChars (Doc.lineComment "//".toList slot.indent.toList
      (wrapChars Doc.commentWidth text.toList))) := by
    refine noteRows_lineComment hslot.blank (wrapChars_ne_nil _ hc hdark) fun line hline =>
      ⟨fun hfeed => ?_, fun hzero => ?_⟩
    -- neither a line feed nor a zero byte comes out of the wrapping that did not go in
    · rcases plain_of_mem_wrapChars hline hfeed with h | h
      · cases h
      · cases h
    · exact (mem_of_mem_wrapChars hline hzero).elim (by decide) htext.whole
  refine ⟨_, hrows, ?_⟩
  rw [DocSlot.renderLine, htext.said]
  simp only [Bool.false_eq_true, if_false]
  split
  · have hfeed (cs : List Char) : encodeChars ('\n' :: cs) = Bytes.newline :: encodeChars cs := rfl
    rw [encodeChars_append, hfeed, List.cons_append, encode]
  · rfl

/-! ### Edits as insertions -/

/-- The edit as an insertion in front of the first code behind it. -/
def insertion (code : Bytes) (x : Edit) : Insertion where
  start := x.start.toNat
  target := code.inkFrom x.start.toNat
  text := x.text ++ code.slice x.stop (code.inkFrom x.start.toNat)

/-- A comment on a declaration stands in front of a construct. -/
theorem landing_node (h : Shaped t) (hm : top ∈ t.root.children) (hs : Sited t top d) (hlands : t.Lands d) :
    ∃ n ∈ top.preorder, n.isComment = false ∧ n.start = d.landing t.code ∧
      (top.kind = "method_declaration" → n = top) := by
  obtain ⟨n, hn, hcode, hstart, hstop, hmethod⟩ := hs.node
  have hin := h.inside hm hn
  have hsolid := h.solid hm hn
  rcases landing_of_lands h.regular hm (by omega) (by omega) hlands with hland | ⟨-, hland⟩
  · exact ⟨n, hn, hcode, by rw [hland, hstart], hmethod⟩
  · have hself : top ∈ top.preorder := mem_preorder.mpr (.inl rfl)
    refine ⟨top, hself, ?_, hland.symm, fun _ => rfl⟩
    -- a comment holds no declaration
    rw [← Bool.not_eq_true]
    intro hcomment
    have hnone := (h.formed top hm top hself).token (by rw [beq_iff_eq.mp hcomment]; decide)
    rcases mem_preorder.mp hn with rfl | ⟨c, hc, -⟩
    · rw [hcode] at hcomment
      cases hcomment
    · rw [hnone] at hc
      cases hc

/-- What is rendered for a slot takes the place of the white space up to its landing. -/
structure Fits (code : Bytes) (d : Declaration) (rendered : Bytes) : Prop where
  ordered : d.slot.start ≤ d.slot.stop
  ahead : d.slot.stop ≤ d.landing code
  note : ∃ k, Joint code k d.slot.start ∧ k.exposed = true ∧
    (k = .line ∧ Note (rendered ++ code.slice d.slot.stop (d.landing code)) ∨
      ∃ text, rendered ++ code.slice d.slot.stop (d.landing code) = Bytes.newline :: text ∧ Note text)

/-- There is code in front of which a comment stands. -/
theorem ink_landing (h : Shaped t) (hm : top ∈ t.root.children) (hs : Sited t top d) (hlands : t.Lands d) :
    d.landing t.code < t.code.length ∧ t.code.inkAt (d.landing t.code) = true := by
  obtain ⟨n, hn, -, hstart, -⟩ := landing_node h hm hs hlands
  have hsolid := h.solid hm hn
  have hbounded := Nat.le_trans (stop_le_of_inside h.regular.inside (h.part hm hn)) h.regular.bounded
  have hlt : d.landing t.code < t.code.length := by omega
  exact ⟨hlt, Bytes.inkAt_inkFrom hlt⟩

/-- A comment at the beginning of a line. -/
theorem fits_line (h : Shaped t) (hm : top ∈ t.root.children) (hs : Sited t top d) (hlands : t.Lands d)
    (htext : Sayable text) {o : Nat} (hstart : d.slot.start = t.code.lineStart o) (hstop : d.slot.stop = d.slot.start)
    (hinline : d.slot.inline = false) (hland : d.landing t.code ≤ o) :
    Fits t.code d (d.slot.renderLine "//" text) := by
  have hle : d.slot.start ≤ d.landing t.code := Bytes.le_inkFrom t.code d.slot.start
  have hblank (i : Nat) (hi : d.slot.start ≤ i) (hlt : i < d.landing t.code) : t.code.inkAt i = false :=
    Bytes.inkAt_of_lt_inkFrom hi hlt
  refine ⟨Nat.le_of_eq hstop.symm, by omega, .line, ?_, rfl, .inl ⟨rfl, ?_⟩⟩
  · obtain ⟨n, hn, -, hnode, -⟩ := landing_node h hm hs hlands
    obtain ⟨k, hk⟩ := (h.settled top hm n hn).start
    rw [hnode] at hk
    refine hk.lineStart hle ?_ fun j hj hlt b hb => ?_
    · rw [hstart]
      rcases Nat.eq_zero_or_pos (t.code.lineStart o) with hzero | hpos
      · exact .inl hzero
      · exact .inr (Bytes.feed_of_lineStart hpos)
    · have hnone := hblank j hj hlt
      rw [inkAt_of_getElem? hb] at hnone
      simpa using hnone
  · obtain ⟨rows, hrows, hrender⟩ := renderLine_notes hs.indented htext
    rw [hrender, hinline, if_neg Bool.false_ne_true, hstop]
    refine ⟨rows, _, hrows, Bytes.blank_slice_iff.mpr hblank, ?_, rfl⟩
    -- the line goes on up to the landing
    rw [Bytes.slice_nat, ← Bytes.rowAt_eq_iff t.code hle, hstart, Bytes.rowAt_of_lineStart (Nat.le_refl _) (by omega),
      Bytes.rowAt_of_lineStart (by omega) hland]

/-- A comment before a member of a group that does not begin its line. -/
theorem fits_inline (h : Shaped t) (hparse : parse t.code = .ok t.root) (hm : top ∈ t.root.children)
    (hs : Sited t top d) (hlands : t.Lands d) (htext : Sayable text) {decl : Node} {m : List Node × Node}
    {indent : String} (hdecl : decl ∈ t.root.children) (hkind : groupKinds.contains decl.kind = true)
    (hspec : m ∈ specs decl) (hmany : 2 ≤ (specs decl).length) (hstarts : t.code.startsLine m.2.start = false)
    (hslot : d.slot = inlineSlot t.code m.1 m.2 indent) (hd : d.start = m.2.start) :
    Fits t.code d (d.slot.renderLine "//" text) := by
  obtain ⟨parent, hparent, hmem⟩ := mem_specs (show (m.1, m.2) ∈ specs decl from hspec)
  obtain ⟨previous, others, hbefore⟩ := List.exists_cons_of_ne_nil (h.before_member hdecl hkind hspec).1
  have hplace : d.slot.start = previous.stop ∧ d.slot.stop = m.2.start ∧ d.slot.inline = true := by
    rw [hslot]
    unfold inlineSlot
    rw [hbefore]
    exact ⟨rfl, rfl, rfl⟩
  obtain ⟨hfirst, hlast, hinline⟩ := hplace
  have hprevious : previous ∈ m.1 := by rw [hbefore]; exact List.mem_cons_self
  have hspaced := SourceTree.spaced_children h.regular.spaced (h.part hdecl hparent)
  have hblank (i : Nat) (hi : d.slot.start ≤ i) (hlt : i < m.2.start) : t.code.inkAt i = false := by
    rw [hslot] at hi
    exact blank_inlineSlot hmem hspaced indent i hi hlt
  have hordered : previous.stop ≤ m.2.start :=
    ((h.regular.aligned (h.part hdecl hparent)).earlier hmem).1 previous hprevious
  -- the member itself is the first code behind the slot
  have hland : d.landing t.code = m.2.start := by
    have hink := (ink_landing h hm hs hlands).2
    have hle : m.2.start ≤ d.landing t.code := by
      by_contra hlt
      rw [hblank (d.landing t.code) (Bytes.le_inkFrom t.code d.slot.start) (by omega)] at hink
      cases hink
    obtain ⟨n, hn, -, hstart, hstop, -⟩ := hs.node
    have hin := h.inside hm hn
    have hsolid := h.solid hm hn
    rcases landing_of_lands h.regular hm (by omega) (by omega) hlands with hland | ⟨-, hland⟩ <;> omega
  have hfeed (i : Nat) (hi : previous.stop ≤ i) (hlt : i < m.2.start) : t.code[i]? ≠ some Bytes.newline := by
    intro hnewline
    rw [← Bool.not_eq_true] at hstarts
    refine hstarts (Bytes.startsLine_iff.mpr ⟨i + 1, hlt, .inr hnewline, fun j hj hlt => hblank j (by omega) hlt⟩)
  refine ⟨by omega, by omega, ?_⟩
  -- there is only white space between what is before the member and the member
  obtain ⟨k, hk⟩ := (h.settled decl hdecl previous (preorder_child hparent (mem_before hmem hprevious))).stop
  have hgrouped : Grouped decl :=
    grouped_of_parse (parseTree_of_parse hparse) hdecl (List.contains_iff_mem.mp hkind) hmany
  obtain ⟨k', hk', hexposed⟩ := (h.settled decl hdecl decl (mem_preorder.mpr (.inl rfl))).members hkind m hspec
    (hgrouped.exists_opening hspec)
  have hlength := hk'.le_length
  obtain ⟨k'', hk'', hsame⟩ := hk.blank (n := m.2.start - previous.stop) (by omega) fun i hi hlt b hb => by
    have hnone := hblank i (by omega) (by omega)
    rw [inkAt_of_getElem? hb] at hnone
    simpa using hnone
  rw [show previous.stop + (m.2.start - previous.stop) = m.2.start by omega] at hk'' hsame
  have hmood : k = k' := by rw [← hsame hfeed, hk''.unique hk']
  rw [hfirst]
  refine ⟨k, hk, hmood ▸ hexposed, .inr ?_⟩
  obtain ⟨rows, hrows, hrender⟩ := renderLine_notes hs.indented htext
  have hnone : t.code.slice d.slot.stop (d.landing t.code) = [] := by
    rw [hlast, hland, Bytes.slice_nat, List.drop_take_self]
  rw [hrender, hinline, if_pos rfl, hnone, List.append_nil]
  exact ⟨_, rfl, rows, _, hrows, hs.indented.blank, hs.indented.feed, rfl⟩

/-- **What is rendered for a declaration without documentation** are comments on lines of their own. -/
theorem fits_of_sited (h : Shaped t) (hparse : parse t.code = .ok t.root) (hm : top ∈ t.root.children)
    (hs : Sited t top d) (hdoc : d.slot.hasDoc = false) (hlands : t.Lands d) (htext : Sayable text) :
    Fits t.code d (d.slot.renderLine "//" text) := by
  cases hs.vacancy hdoc with
  | line hstart hstop hinline hland => exact fits_line h hm hs hlands htext hstart hstop hinline (hland hlands)
  | inline hdecl hkind hspec hmany hstarts hslot hd =>
    exact fits_inline h hparse hm hs hlands htext hdecl hkind hspec hmany hstarts hslot hd

/-- A text that is set in the slot of a declaration without documentation, in front of the declaration. -/
structure Telling (t : SourceTree) (d : Declaration) (x : Edit) : Prop where
  sited : ∃ top ∈ t.root.children, Sited t top d
  vacant : d.slot.hasDoc = false
  lands : t.Lands d
  edit : ∃ text, Sayable text ∧ x = ⟨d.slot.start, d.slot.stop, d.slot.renderLine "//" text⟩

/-- Every comment that opens in the source is closed. -/
def Closed (code : Bytes) : Prop :=
  ∀ k o, Joint code k o → startsWith [0x2f, 0x2a] (code.drop o) = true → commentLength (code.drop o) ≠ 0

/-- Whether all comments are closed is told by the offsets of the source. -/
theorem closed_of_forall {code : Bytes} (h : ∀ o < code.length, startsWith [0x2f, 0x2a] (code.drop o) = true →
    commentLength (code.drop o) ≠ 0) : Closed code := by
  intro k o _ hopens
  refine h o ?_ hopens
  by_contra hlt
  rw [List.drop_eq_nil_of_le (by omega)] at hopens
  cases hopens

/-- The edit as an insertion. -/
theorem Telling.insertion_eq {x : Edit} (h : Telling t d x) :
    (insertion t.code x).start = d.slot.start ∧ (insertion t.code x).target = d.landing t.code := by
  obtain ⟨text, -, rfl⟩ := h.edit
  exact ⟨rfl, rfl⟩

/-- **Edits that set comments on declarations** insert notes in front of them. -/
theorem notes_of_edits (hparse : parse t.code = .ok t.root) (hclosed : Closed t.code) {xs : List Edit}
    (hxs : ∀ x ∈ xs, ∃ d, Telling t d x) (hsorted : xs.Pairwise fun a b => a.start ≤ b.start)
    (hapart : xs.Pairwise fun a b => (insertion t.code a).target ≠ (insertion t.code b).target) :
    ∃ is : Insertions t.code, is.all = xs.map (insertion t.code) ∧ Notes is ∧
      t.code.applyEdits 0 xs = is.result := by
  have h := shaped_of_parse hparse
  have htells (x : Edit) (hx : x ∈ xs) : ∃ d top, top ∈ t.root.children ∧ Telling t d x ∧ Sited t top d ∧
      Fits t.code d x.text ∧ x.start = d.slot.start ∧ x.stop = d.slot.stop := by
    obtain ⟨d, htells⟩ := hxs x hx
    obtain ⟨top, hm, hs⟩ := htells.sited
    obtain ⟨text, htext, rfl⟩ := htells.edit
    exact ⟨d, top, hm, htells, hs, fits_of_sited h hparse hm hs htells.vacant htells.lands htext, rfl, rfl⟩
  have hink (x : Edit) (hx : x ∈ xs) : (insertion t.code x).target < t.code.length ∧
      t.code.inkAt (insertion t.code x).target = true := by
    obtain ⟨d, top, hm, htells, hs, -⟩ := htells x hx
    rw [htells.insertion_eq.2]
    exact ink_landing h hm hs htells.lands
  have hordered : ∀ e ∈ xs.map (insertion t.code), e.start ≤ e.target ∧ e.target < t.code.length :=
    List.forall_mem_map.mpr fun x hx => ⟨Bytes.le_inkFrom t.code _, (hink x hx).1⟩
  -- the next slot begins behind the code in front of which a text is set
  have hbehind : (xs.map (insertion t.code)).Pairwise fun e e' => e.target < e'.start := by
    refine List.pairwise_map.mpr (List.Pairwise.imp_of_mem (fun {a b} ha hb ⟨hle, hne⟩ => ?_) (hsorted.and hapart))
    rcases Bytes.inkFrom_of_le (b := b.start.toNat) (hink a ha).2 with hlt | hlt | heq
    · exact hlt
    · omega
    · exact absurd heq.symm hne
  refine ⟨⟨xs.map (insertion t.code), hordered, hbehind⟩, rfl, ⟨?_, ?_, ?_, ?_, hclosed⟩, ?_⟩
  · exact List.forall_mem_map.mpr fun x _ i hi hlt => Bytes.inkAt_of_lt_inkFrom hi hlt
  · exact List.forall_mem_map.mpr fun x hx => (hink x hx).2
  · refine List.forall_mem_map.mpr fun x hx => ?_
    obtain ⟨d, top, hm, htells, hs, -⟩ := htells x hx
    obtain ⟨n, hn, hcode, hstart, -⟩ := landing_node h hm hs htells.lands
    rw [htells.insertion_eq.2, ← hstart]
    exact (h.settled top hm n hn).bare hcode
  · refine List.forall_mem_map.mpr fun x hx => ?_
    obtain ⟨d, top, hm, htells, hs, hfits, -, hstop⟩ := htells x hx
    obtain ⟨k, hk, hexposed, hnote⟩ := hfits.note
    have htext : (insertion t.code x).text = x.text ++ t.code.slice d.slot.stop (d.landing t.code) := by
      rw [← htells.insertion_eq.2, ← hstop]
      rfl
    rw [htells.insertion_eq.1, htext]
    exact ⟨k, hk, hexposed, hnote⟩
  · rw [Insertions.result]
    refine Bytes.applyEdits_eq_splice (List.forall₂_map_right_iff.mpr (List.forall₂_same.mpr fun x hx => ?_))
      (fun e he => (hordered e he).2) hbehind fun e _ => Nat.zero_le _
    obtain ⟨d, top, hm, htells, hs, hfits, hstart, hstop⟩ := htells x hx
    refine ⟨d.slot.stop, ?_, hstop, ?_, ?_, ?_⟩
    · rw [htells.insertion_eq.1, hstart]
    · rw [htells.insertion_eq.1]
      exact hfits.ordered
    · rw [htells.insertion_eq.2]
      exact hfits.ahead
    · rw [← hstop]
      rfl

/-- No comment is inserted in a method. -/
theorem apart_of_telling (h : Shaped t) {x : Edit} (htells : Telling t d x) (hn : n ∈ t.root.children)
    (hkind : n.kind = "method_declaration") :
    (insertion t.code x).target ≤ n.start ∨ n.stop ≤ (insertion t.code x).target := by
  obtain ⟨top, hm, hs⟩ := htells.sited
  obtain ⟨inner, hinner, -, hstart, hmethod⟩ := landing_node h hm hs htells.lands
  rw [htells.insertion_eq.2, ← hstart]
  have hin := h.inside hm hinner
  have hsolid := h.solid hm hinner
  by_contra hheld
  -- the construct that shares code with the method is the method
  obtain rfl : top = n := eq_of_holds (h.regular.aligned (mem_preorder.mpr (.inl rfl))) hm hn
    (a := inner.start) (b := inner.start + 1) (by omega) (by omega) (by omega)
  rw [hmethod hkind] at hheld
  omega

/-- **With comments set on its declarations a source is parsed and declares the same**, and they are documented. -/
theorem declarations_of_edits {ds : List Declaration} (hparse : parse t.code = .ok t.root) (hclosed : Closed t.code)
    (hds : declarations t = .ok ds) {xs : List Edit} (hxs : ∀ x ∈ xs, ∃ d, Telling t d x)
    (hsorted : xs.Pairwise fun a b => a.start ≤ b.start)
    (hapart : xs.Pairwise fun a b => (insertion t.code a).target ≠ (insertion t.code b).target) :
    ∃ t' ds', parseTree (t.code.applyEdits 0 xs) = .ok t' ∧ declarations t' = .ok ds' ∧
      List.Forall₂ (fun d d' => { d' with slot := d.slot, start := d.start, stop := d.stop } = d ∧
        ((∃ x ∈ xs, Telling t d x) → d'.slot.hasDoc = true)) ds ds' := by
  obtain ⟨is, hall, hnotes, hresult⟩ := notes_of_edits hparse hclosed hxs hsorted hapart
  have h := shaped_of_parse hparse
  -- the tree of the new text, grown from the old one by the insertions the edits amount to
  obtain ⟨root', hparse', -, hchildren⟩ := parse_result hnotes hparse
  have hregrown : Regrown t is { code := is.result, root := root' } := by
    refine ⟨rfl, hchildren, h, ?_⟩
    rw [hall]
    refine List.forall_mem_map.mpr fun x hx n hn hkind => ?_
    obtain ⟨d, htells⟩ := hxs x hx
    exact apart_of_telling h htells hn hkind
  obtain ⟨ds', hds', hkin⟩ := hregrown.kin_declarations ds hds
  have htree : parseTree (t.code.applyEdits 0 xs) = .ok { code := is.result, root := root' } := by
    rw [hresult]
    exact parseTree_of_parse hparse'
  refine ⟨_, ds', htree, hds', hkin.imp fun d d' hkin => ⟨hkin.same, fun ⟨x, hx, htells⟩ => ?_⟩⟩
  -- an edit that tells of `d` became one of the insertions, and its target is the landing of `d`
  refine hkin.told htells.vacant htells.lands ⟨insertion t.code x, ?_, htells.insertion_eq.2⟩
  rw [hall]
  exact List.mem_map_of_mem hx

end Docsmith.Go
