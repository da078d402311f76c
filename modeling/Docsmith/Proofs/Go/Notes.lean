import Docsmith.Proofs.Go.Moods
import Docsmith.Proofs.Grammar.Grown

namespace Docsmith.Go

open Grammar

/-!
# Comments inserted in a Go source

Line comments on lines of their own are inserted in front of code, each behind white space at an exposed joint.  They
are skipped where they stand, and no token of the source is read otherwise because of them.

* `NoteRows`, `Note`, `Notes`: the texts that are inserted, and where.
* `NoteRows.skims`, `Note.skims`: a text is skipped as a run of comments.
* `Notes.comment`: the comments of the source are there in the result.
* `Notes.forked`, `Notes.scan_eq`: up to the next text both go on alike, and the same tokens are read.
-/

/-- A line comment on a line of its own. -/
def noteRow (indent body : Bytes) : Bytes := indent ++ 0x2f :: 0x2f :: (body ++ [Bytes.newline])

/-- Line comments on lines of their own. -/
inductive NoteRows : Bytes → Prop
  | last {indent body : Bytes} (hindent : Bytes.blank indent = true) (hbody : Bytes.newline ∉ body ∧ 0 ∉ body) :
      NoteRows (noteRow indent body)
  | cons {indent body rows : Bytes} (hindent : Bytes.blank indent = true) (hbody : Bytes.newline ∉ body ∧ 0 ∉ body)
      (h : NoteRows rows) : NoteRows (noteRow indent body ++ rows)

/-- Line comments on lines of their own, and the white space of a further line. -/
def Note (text : Bytes) : Prop :=
  ∃ rows tail, NoteRows rows ∧ Bytes.blank tail = true ∧ Bytes.newline ∉ tail ∧ text = rows ++ tail

/-- The insertions are comments in front of code where a line begins or, on a line of their own, where a statement has
    ended.  A comment that opens in the source is closed there. -/
structure Notes {code : Bytes} (is : Insertions code) : Prop where
  blank : ∀ e ∈ is.all, ∀ i, e.start ≤ i → i < e.target → code.inkAt i = false
  ink : ∀ e ∈ is.all, code.inkAt e.target = true
  bare : ∀ e ∈ is.all, commentLength (code.drop e.target) = 0
  note : ∀ e ∈ is.all, ∃ k, Joint code k e.start ∧ k.exposed = true ∧
    (k = .line ∧ Note e.text ∨ ∃ text, e.text = Bytes.newline :: text ∧ Note text)
  closed : ∀ k o, Joint code k o → startsWith [0x2f, 0x2a] (code.drop o) = true → commentLength (code.drop o) ≠ 0

variable {code : Bytes} {is : Insertions code} {p q p' q' : Place} {xs ys : List Node} {k : Mood} {lines : Bool}
  {blanks indent body rest text : Bytes} {e : Insertion} {o o' : Nat}

/-! ### Reading comments -/

theorem inkAt_of_getElem? {b : UInt8} (h : code[o]? = some b) : code.inkAt o = !Bytes.isBlank b := by
  rw [Bytes.inkAt, h]
  rfl

/-- White space is skipped. -/
theorem skims_blanks (hrest : p.rest = blanks ++ rest) (hblank : Bytes.blank blanks = true)
    (h : Skims true (p.advance blanks.length) xs q) : Skims true p xs q := by
  induction blanks generalizing p with
  | nil => exact h
  | cons b blanks ih =>
    rw [Bytes.blank, List.all_cons, Bool.and_eq_true] at hblank
    refine .blank hrest (by rw [hblank.1]; rfl) (ih ?_ hblank.2 ?_)
    · rw [Place.rest_advance, hrest]
      rfl
    · rw [Place.advance_add, Nat.add_comm]
      exact h

theorem commentLength_line (hbody : Bytes.newline ∉ body ∧ 0 ∉ body) (rest : Bytes) :
    commentLength (0x2f :: 0x2f :: (body ++ Bytes.newline :: rest)) = body.length + 2 := by
  have hline : lineLength (body ++ Bytes.newline :: rest) = body.length := by
    rw [lineLength, List.takeWhile_append_of_pos, List.takeWhile_cons_of_neg (by decide), List.append_nil]
    intro b hb
    rw [Bool.and_eq_true, bne_iff_ne, bne_iff_ne]
    exact ⟨fun h => hbody.1 (h ▸ hb), fun h => hbody.2 (h ▸ hb)⟩
  show lineLength (0x2f :: 0x2f :: (body ++ Bytes.newline :: rest)) = _
  rw [← hline]
  rfl

/-- White space at the head of a line goes on. -/
theorem startsLine_advance (hp : p.Within code) (hrest : p.rest = blanks ++ rest) (hblank : Bytes.blank blanks = true)
    (hstarts : code.startsLine p.offset = true) : code.startsLine (p.advance blanks.length).offset = true := by
  have hoffset : (p.advance blanks.length).offset = p.offset + blanks.length := by
    rw [Place.offset_advance, hrest, List.length_append, Nat.min_eq_left (Nat.le_add_right _ _)]
  rw [hoffset]
  refine Bytes.startsLine_of_blank hstarts (Nat.le_add_right _ _) fun i hi hlt => ?_
  have hx := hp.getElem?_rest (i - p.offset)
  rw [Nat.add_sub_cancel' hi, hrest, List.getElem?_append_left (by omega),
    List.getElem?_eq_getElem (by omega)] at hx
  rw [inkAt_of_getElem? hx.symm, List.all_eq_true.mp hblank _ (List.getElem_mem _)]
  rfl

/-- A comment on a line of its own is read as such. -/
theorem skims_row (hp : p.Within code) (hrest : p.rest = noteRow indent body ++ rest)
    (hstarts : code.startsLine p.offset = true) (hindent : Bytes.blank indent = true)
    (hbody : Bytes.newline ∉ body ∧ 0 ∉ body) (h : Skims true (p.advance (noteRow indent body).length) xs q) :
    ∃ c, Skims true p (c :: xs) q ∧ (c.isComment = true ∧ c.named = true ∧ c.role = "") ∧
      code.startsLine c.start = true ∧ c.lastRow + 1 = (p.advance (noteRow indent body).length).row := by
  -- a row is the indent, two slashes, the text of the comment and a line feed
  have hfirst : p.rest = indent ++ 0x2f :: 0x2f :: (body ++ Bytes.newline :: rest) := by
    rw [hrest, noteRow]
    simp
  have hcomment : (p.advance indent.length).rest = 0x2f :: 0x2f :: (body ++ Bytes.newline :: rest) := by
    rw [Place.rest_advance, hfirst, List.drop_left]
  -- the comment reaches to the line feed, which is no part of it
  have hlength : commentLength (p.advance indent.length).rest = body.length + 2 := by
    rw [hcomment]
    exact commentLength_line hbody rest
  have hfeed : ((p.advance indent.length).advance (body.length + 2)).rest = Bytes.newline :: rest := by
    rw [Place.rest_advance, hcomment, List.drop_succ_cons, List.drop_succ_cons, List.drop_left]
  have hend : ((p.advance indent.length).advance (body.length + 2)).advance 1
      = p.advance (noteRow indent body).length := by
    rw [Place.advance_add, Place.advance_add, noteRow]
    congr 1
    simp
  -- the comment is skipped, and behind it the line feed, which is a blank
  have hskims : Skims true (p.advance indent.length)
      ((p.advance indent.length).leaf "comment" true (body.length + 2) :: xs) q := by
    rw [← hlength]
    refine .comment (by rw [hlength]; exact Nat.succ_ne_zero _) ?_
    rw [hlength]
    refine .blank hfeed (by decide) ?_
    rw [hend]
    exact h
  refine ⟨_, skims_blanks hfirst hindent hskims, ⟨rfl, rfl, rfl⟩, startsLine_advance hp hfirst hindent hstarts, ?_⟩
  show ((p.advance indent.length).advance (body.length + 2)).row + 1 = _
  rw [← hend, Place.row_advance 1, hfeed]
  rfl

/-- Behind a comment on a line of its own a line begins. -/
theorem startsLine_row (hp : p.Within code) (hrest : p.rest = noteRow indent body ++ rest) :
    code.startsLine (p.advance (noteRow indent body).length).offset = true := by
  have hlength : (noteRow indent body).length = (indent ++ 0x2f :: 0x2f :: body).length + 1 := by
    simp [noteRow, Nat.add_assoc]
  have hoffset : (p.advance (noteRow indent body).length).offset
      = p.offset + (indent ++ 0x2f :: 0x2f :: body).length + 1 := by
    rw [Place.offset_advance, hrest, List.length_append, Nat.min_eq_left (Nat.le_add_right _ _), hlength]
    rfl
  rw [hoffset]
  refine Bytes.startsLine_of_feed ?_
  rw [← hp.getElem?_rest, hrest, List.getElem?_append_left (by omega), noteRow, ← List.cons_append,
    ← List.cons_append, ← List.append_assoc, List.getElem?_append_right (Nat.le_refl _), Nat.sub_self]
  rfl

/-- **Comments on lines of their own are read as such**, and the last of them ends directly above what is behind. -/
theorem NoteRows.skims {rows : Bytes} (h : NoteRows rows) (hp : p.Within code) (hrest : p.rest = rows ++ rest)
    (hstarts : code.startsLine p.offset = true) (hend : Skims true (p.advance rows.length) xs q) :
    code.startsLine (p.advance rows.length).offset = true ∧
      ∃ news, Skims true p (news ++ xs) q ∧ (∀ c ∈ news, c.isComment = true ∧ c.named = true ∧ c.role = "") ∧
        ∃ c ∈ news.getLast?, code.startsLine c.start = true ∧ c.lastRow + 1 = (p.advance rows.length).row := by
  -- the rows one by one; the last one stands directly above what follows
  induction h generalizing p with
  | last hindent hbody =>
    obtain ⟨c, hskims, hcomment, hstart, hrow⟩ := skims_row hp hrest hstarts hindent hbody hend
    refine ⟨startsLine_row hp hrest, [c], hskims, fun x hx => ?_, c, rfl, hstart, hrow⟩
    rw [List.mem_singleton.mp hx]
    exact hcomment
  | @cons indent body rows hindent hbody _ ih =>
    rw [List.append_assoc] at hrest
    -- the rows are skipped one after the other, so the place moves on by their sum
    have hsplit : p.advance (noteRow indent body ++ rows).length
        = (p.advance (noteRow indent body).length).advance rows.length := by
      rw [Place.advance_add, List.length_append]
    rw [hsplit] at hend ⊢
    obtain ⟨hstarts', news, hskims, hnews, d, hd, hlast⟩ := ih (hp.advance _)
      (by rw [Place.rest_advance, hrest, List.drop_left]) (startsLine_row hp hrest) hend
    obtain ⟨c, hskims, hcomment, -⟩ := skims_row hp hrest hstarts hindent hbody hskims
    refine ⟨hstarts', c :: news, hskims, fun x hx => ?_, d, ?_, hlast⟩
    · rcases List.mem_cons.mp hx with rfl | hx
      · exact hcomment
      · exact hnews x hx
    · rw [List.getLast?_cons, hd]
      rfl

/-- **A note is read as comments** that end directly above what is behind. -/
theorem Note.skims (h : Note text) (hp : p.Within code) (hrest : p.rest = text ++ rest)
    (hstarts : code.startsLine p.offset = true) (hend : Skims true (p.advance text.length) xs q) :
    ∃ news, Skims true p (news ++ xs) q ∧ (∀ c ∈ news, c.isComment = true ∧ c.named = true ∧ c.role = "") ∧
      Heading code news (p.advance text.length).offset (p.advance text.length).row := by
  obtain ⟨rows, tail, hrows, hblank, hfeed, rfl⟩ := h
  rw [List.append_assoc] at hrest
  have hsplit : p.advance (rows ++ tail).length = (p.advance rows.length).advance tail.length := by
    rw [Place.advance_add, List.length_append]
  have htail : (p.advance rows.length).rest = tail ++ rest := by rw [Place.rest_advance, hrest, List.drop_left]
  rw [hsplit] at hend ⊢
  obtain ⟨hstarts', news, hskims, hnews, hlast⟩ := hrows.skims hp hrest hstarts (skims_blanks htail hblank hend)
  refine ⟨news, hskims, hnews, startsLine_advance (hp.advance _) htail hblank hstarts', ?_⟩
  -- what is behind the rows is on the same row
  rw [Place.row_advance, htail, List.take_left, List.count_eq_zero.mpr hfeed]
  exact hlast

/-! ### What is the same in the result -/

/-- A byte that is no white space and begins no comment ends a statement or opens a parenthesis if a mood is exposed
    behind it. -/
theorem isStop_of_exposed {b : UInt8} (hblank : Bytes.isBlank b = false) (hcode : commentLength (b :: rest) = 0)
    (h : (k.behind (b :: rest)).exposed = true) : isStop b = true := by
  have hfeed : b ≠ Bytes.newline := by
    rintro rfl
    cases hblank
  rw [Mood.behind, hcode] at h
  simp only [bne_self_eq_false, Bool.false_eq_true, if_false, beq_iff_eq, hfeed, hblank, Bool.or_eq_true] at h
  split_ifs at h with h₁ h₂ h₃ h₄
  · rcases h₁ with rfl | rfl <;> rfl
  · rw [h₂]
    rfl
  all_goals cases h

namespace Notes

/-- The piece at an offset is over where a text is inserted. -/
theorem piece_le (hn : Notes is) (hk : Joint code k o) (he : e ∈ is.all) (hlt : o < e.start) :
    pieceLength (code.drop o) ≠ 0 ∧ o + pieceLength (code.drop o) ≤ e.start := by
  obtain ⟨k', hk', -⟩ := hn.note e he
  exact hk.piece_le hk' hlt

theorem take_piece (hn : Notes is) (hk : Joint code k o) (h : is.Behind o o') :
    (is.result.drop o').take (pieceLength (code.drop o)) = (code.drop o).take (pieceLength (code.drop o)) := by
  have hle := pieceLength_le (code.drop o)
  have hbounded := h.bounded
  rw [List.length_drop] at hle
  exact h.take_eq (by omega) fun e he hlt => (hn.piece_le hk he hlt).2

/-- The next byte is the same. -/
theorem head?_eq (h : is.Behind o o') : (is.result.drop o').head? = (code.drop o).head? := by
  rcases Nat.lt_or_ge o code.length with hlt | hge
  · have htake := congrArg List.head? (h.take_eq (n := 1) hlt fun e _ he => he)
    simpa only [List.head?_take, Nat.one_ne_zero, if_false] using htake
  · rw [h.drop_eq fun e he => ?_]
    have := is.ordered e he
    omega

/-- Where there is no comment, there is none in the result. -/
theorem noComment (hn : Notes is) (hk : Joint code k o) (h : is.Behind o o')
    (hcode : commentLength (code.drop o) = 0) : commentLength (is.result.drop o') = 0 := by
  have hhead := head?_eq h
  rcases is.next_cases o with hnone | ⟨e, he, hlt, hfirst⟩
  · rw [h.drop_eq hnone, hcode]
  · cases hdrop : code.drop o with
    | nil =>
      rw [hdrop, List.head?_nil, List.head?_eq_none_iff] at hhead
      rw [hhead]
      rfl
    | cons b rest =>
      by_cases hb : b = 0x2f
      · -- behind a slash no text is inserted
        subst hb
        have hpiece : pieceLength (code.drop o) = 1 := by
          rw [hdrop] at hcode ⊢
          exact pieceLength_single hcode (by decide)
        obtain ⟨k', hk', hexposed, -⟩ := hn.note e he
        have hle : o + 2 ≤ e.start := by
          by_contra hgt
          have hnext := hk.step (by rw [hpiece]; decide)
          rw [hpiece, show o + 1 = e.start by omega] at hnext
          rw [hk'.unique hnext] at hexposed
          rw [hdrop] at hexposed hcode
          exact absurd (isStop_of_exposed (by decide) hcode hexposed) (by decide)
        have hopens : startsWith [0x2f, 0x2a] (code.drop o) = false := by
          rw [← Bool.not_eq_true]
          exact fun hstarts => hn.closed k o hk hstarts hcode
        have horder := is.ordered e he
        refine noComment_of_take hcode hopens (h.take_eq (by omega) fun e' he' hlt' => ?_).symm
        exact Nat.le_trans hle (hfirst e' he' hlt')
      · rw [hdrop, List.head?_cons] at hhead
        obtain ⟨rest', hrest'⟩ : ∃ rest', is.result.drop o' = b :: rest' := by
          cases hresult : is.result.drop o' with
          | nil => rw [hresult] at hhead; cases hhead
          | cons c rest' => rw [hresult] at hhead; cases hhead; exact ⟨rest', rfl⟩
        rw [hrest']
        exact commentLength_cons hb rest'

/-- A comment is the same in the result. -/
theorem comment (hn : Notes is) (hk : Joint code k o) (h : is.Behind o o')
    (hcomment : commentLength (code.drop o) ≠ 0) :
    commentLength (is.result.drop o') = commentLength (code.drop o) := by
  have hpiece := pieceLength_comment hcomment
  have htake := hn.take_piece hk h
  rw [hpiece] at htake
  refine comment_of_take hcomment htake.symm fun hslash x hx => ?_
  -- a line comment ends with its line, and a text that is inserted there begins with a line feed
  obtain ⟨hle, -⟩ := commentLength_cases hcomment
  have hbounded := h.bounded
  rw [List.length_drop] at hle
  have hbefore := h.before (n := commentLength (code.drop o)) (by omega) (by omega) fun e he hlt => by
    rw [← hpiece]
    exact (hn.piece_le hk he hlt).2
  have hnext := hk.step (by rw [hpiece]; exact hcomment)
  rw [hpiece, behind_comment hcomment] at hnext
  rw [List.getElem?_drop, ← List.head?_drop] at hx
  by_cases hins : ∃ e ∈ is.all, e.start = o + commentLength (code.drop o)
  · obtain ⟨e, he, hstart⟩ := hins
    rw [← hstart] at hbefore hnext
    obtain ⟨k', hk', -, hnote⟩ := hn.note e he
    rcases hnote with ⟨rfl, -⟩ | ⟨text, htext, -⟩
    · have hline := hk'.unique hnext
      split at hline
      · cases hline
      · rename_i hne
        exact absurd hline.symm hne
    · rw [(hbefore.insert he).1, htext, List.cons_append, List.head?_cons] at hx
      cases hx
      exact .inr rfl
  · rw [head?_eq (hbefore.behind fun e he hstart => hins ⟨e, he, hstart⟩), ← List.drop_drop] at hx
    have hline : commentLength (code.drop o) = lineLength (code.drop o) := by
      rcases hdrop : code.drop o with - | ⟨a, - | ⟨b, rest⟩⟩
      · rfl
      · rw [hdrop] at hslash
        cases hslash
      · rw [hdrop] at hslash hcomment
        cases hslash
        obtain ⟨-, hfirst, -⟩ := commentLength_cases hcomment
        cases hfirst
        rfl
    rw [hline] at hx
    rcases drop_lineLength (code.drop o) with hnil | ⟨b, rest, hrest, hb⟩
    · rw [hnil] at hx
      cases hx
    · rw [hrest] at hx
      cases hx
      exact hb

/-- Where no comment and no white space is, but perhaps a line feed, all is the same in the result, or it is up to a
    byte that ends a statement or opens a parenthesis, beyond the first piece. -/
theorem forked (hn : Notes is) (hk : Joint code k o) (h : is.Behind o o') (hcode : commentLength (code.drop o) = 0)
    (hhead : ∀ b rest, code.drop o = b :: rest → Bytes.isBlank b = false ∨ b = Bytes.newline) :
    is.result.drop o' = code.drop o ∨ Forked (isStop · = true) (code.drop o) (is.result.drop o') ∧
      pieceLength (code.drop o) ≠ 0 := by
  rcases is.next_cases o with hnone | ⟨e, he, hlt, hfirst⟩
  · exact .inl (h.drop_eq hnone)
  · obtain ⟨hpos, hle⟩ := hn.piece_le hk he hlt
    obtain ⟨k', hk', hexposed, -⟩ := hn.note e he
    have horder := is.ordered e he
    have htake := h.take_eq (n := e.start - o) (by omega) fun e' he' hlt' => by
      have := hfirst e' he' hlt'
      omega
    suffices hstop : ∃ i b, o ≤ i ∧ i < e.start ∧ code[i]? = some b ∧ isStop b = true by
      obtain ⟨i, b, hi, hlt, hb, hstop⟩ := hstop
      refine .inr ⟨.of_take (i := i - o) htake.symm (by omega) ?_ hstop, hpos⟩
      rw [List.getElem?_drop, Nat.add_sub_cancel' hi, hb]
    -- it is the first byte, if a mood is exposed behind it
    cases hmood : (k.behind (code.drop o)).exposed with
    | false =>
      obtain ⟨i, b, hi, hrest⟩ := (hk.step hpos).exists_stop hk' hle hmood hexposed
      exact ⟨i, b, by omega, hrest⟩
    | true =>
      cases hdrop : code.drop o with
      | nil => rw [hdrop] at hpos; exact absurd rfl hpos
      | cons b rest =>
        have hb : code[o]? = some b := by rw [← List.head?_drop, hdrop]; rfl
        refine ⟨o, b, Nat.le_refl o, hlt, hb, ?_⟩
        rcases hhead b rest hdrop with hblank | rfl
        · rw [hdrop] at hcode hmood
          exact isStop_of_exposed hblank hcode hmood
        · rfl

/-- **A form finds the same in the result.** -/
theorem scan_eq (hn : Notes is) (hk : Joint code k o) (h : is.Behind o o') (hcode : commentLength (code.drop o) = 0)
    (hhead : ∀ b rest, code.drop o = b :: rest → Bytes.isBlank b = false ∨ b = Bytes.newline) {form : Form}
    (hclear : form.clear = true) : form.scan (is.result.drop o') = form.scan (code.drop o) := by
  rcases hn.forked hk h hcode hhead with heq | ⟨hforked, hpos⟩
  · rw [heq]
  · exact Form.scan_forked hclear hforked hcode hpos (hn.take_piece hk h).symm

end Notes

end Docsmith.Go
