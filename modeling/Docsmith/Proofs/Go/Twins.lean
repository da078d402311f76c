import Docsmith.Proofs.Go.Notes

namespace Docsmith.Go

open Grammar

/-!
# Reading a source with comments inserted

The reader of the source and that of the result go in step: each step of the one is matched by one of the other, and
the nodes that are read differ in their places, and in the comments that were inserted between them.

* `Meets`, `Reaches`: where the readers are, before and behind what is skipped.
* `Meets.insert`, `Skims.twin`: what is skipped in the source is skipped in the result, with the text that stands there.
* `InStep`, `Abreast`: the readers before a terminal, and behind what they have skipped.
* `Abreast.finish`, `Abreast.token`, `level_terminal`: the readers behind a terminal.
* `twins`: whatever the grammar yields for the source, it yields the like of it for the result.
-/

variable {code : Bytes} {is : Insertions code} {p q p' q' : Place} {xs xs' : List Node} {k : Mood} {lines : Bool}
  {e : Insertion} {n : Nat}

/-- The reader of the result is where the reader of the source is, before a text if there is one. -/
structure Meets (is : Insertions code) (k : Mood) (p p' : Place) : Prop where
  joint : Joint code k p.offset
  before : is.Before p.offset p'.offset
  within : p.Within code
  within' : p'.Within is.result
  line : k = .line → is.result.startsLine p'.offset = true

/-- The reader of the result has skipped what the reader of the source has, and the text if there is one. -/
structure Reaches (is : Insertions code) (p q p' q' : Place) (xs xs' : List Node) : Prop where
  behind : is.Behind q.offset q'.offset
  comments : ∃ ys news, xs' = ys ++ news ∧ Along is (Grown is) xs ys ∧ News is q.offset news q'.offset q'.row
  line : Joint code .line q.offset → is.result.startsLine q'.offset = true
  moved : (∀ e ∈ is.all, e.target ≠ q.offset) → q'.offset + p.offset = p'.offset + q.offset

theorem offset_advance_of_le (h : n ≤ p.rest.length) : (p.advance n).offset = p.offset + n := by
  rw [Place.offset_advance, Nat.min_eq_left h]

/-- A node without parts and its counterpart. -/
theorem grown_leaf {kind : String} (hkind : (kind == markKind) = false) (named : Bool)
    (h : is.Behind p.offset p'.offset)
    (h' : is.Before (p.advance n).offset (p'.advance n).offset)
    (hclean : ∀ e ∈ is.all, p.offset < e.start → (p.advance n).offset ≤ e.start) :
    Grown is (p.leaf kind named n) (p'.leaf kind named n) :=
  .mk rfl rfl rfl hkind h h' (fun _ => hclean) .nil

/-- Where no text begins and none has been passed, none was inserted. -/
theorem news_nil (h : is.Before p.offset p'.offset) (hfree : ∀ e ∈ is.all, e.start ≠ p.offset) (row : Nat) :
    News is p.offset [] p'.offset row where
  comments c hc := by cases hc
  none _ := rfl
  heading := by
    rintro ⟨e, he, htarget⟩
    have horder := is.ordered e he
    have hne := hfree e he
    rcases h.outside e he with hle | hlt <;> omega

/-- The first byte behind what was inserted is the same. -/
theorem head?_rest (hp : p.Within code) (hp' : p'.Within is.result) (h : is.Behind p.offset p'.offset) :
    p'.rest.head? = p.rest.head? := by
  rw [hp.rest, hp'.rest]
  exact Notes.head?_eq h

/-- Where nothing is skipped in the source, nothing is behind what was inserted. -/
theorem skims_stop (hn : Notes is) (hk : Joint code k p.offset) (hp : p.Within code) (hp' : p'.Within is.result)
    (h : is.Behind p.offset p'.offset)
    (hblank : ∀ b rest, p.rest = b :: rest → (Bytes.isBlank b && (lines || b != Bytes.newline)) = false)
    (hcode : commentLength p.rest = 0) : Skims lines p' [] p' := by
  refine .stop (fun b rest hrest => ?_) ?_
  · have hsame := head?_rest hp hp' h
    rw [hrest, List.head?_cons] at hsame
    cases hbytes : p.rest with
    | nil => rw [hbytes] at hsame; cases hsame
    | cons c more =>
      rw [hbytes] at hsame
      cases hsame
      exact hblank _ more hbytes
  · rw [hp.rest] at hcode
    rw [hp'.rest]
    exact hn.noComment hk h hcode

/-- Before the code that a text is inserted in front of, the source has white space, and nothing is skipped at the
    code. -/
theorem skims_gap (hn : Notes is) (hp : p.Within code) (he : e ∈ is.all) (hstart : e.start = p.offset) :
    ∃ q, Skims true p [] q ∧ q.Within code ∧ q.offset = e.target ∧
      (∀ b rest, q.rest = b :: rest → (Bytes.isBlank b && (true || b != Bytes.newline)) = false) ∧
      commentLength q.rest = 0 := by
  have horder := is.ordered e he
  -- the insertion's own gap: the bytes from its place to its target, all of them blank
  have hrest : p.rest = p.rest.take (e.target - p.offset) ++ code.drop e.target := by
    rw [hp.rest, ← Nat.add_sub_cancel' (show p.offset ≤ e.target by omega), ← List.drop_drop,
      Nat.add_sub_cancel_left, List.take_append_drop]
  have hgap : (p.rest.take (e.target - p.offset)).length = e.target - p.offset := by
    rw [List.length_take, hp.length_rest]
    omega
  have hblank : Bytes.blank (p.rest.take (e.target - p.offset)) = true := by
    refine List.all_eq_true.mpr fun x hx => ?_
    obtain ⟨i, hi, rfl⟩ := List.mem_iff_getElem.mp hx
    have hbyte := List.getElem?_eq_getElem hi
    rw [List.getElem?_take, if_pos (by omega), hp.getElem?_rest] at hbyte
    have hink := hn.blank e he (p.offset + i) (by omega) (by omega)
    rw [inkAt_of_getElem? hbyte] at hink
    simpa using hink
  have htarget : (p.advance (e.target - p.offset)).offset = e.target := by
    rw [offset_advance_of_le (by rw [hp.length_rest]; omega)]
    omega
  have hwithin := hp.advance (e.target - p.offset)
  -- at the target there is ink, so the skipping stops exactly there
  have hdark : ∀ b rest, (p.advance (e.target - p.offset)).rest = b :: rest →
      (Bytes.isBlank b && (true || b != Bytes.newline)) = false := by
    intro b rest hb
    have hink := hn.ink e he
    rw [hwithin.rest, htarget] at hb
    have hbyte : code[e.target]? = some b := by rw [← List.head?_drop, hb]; rfl
    rw [inkAt_of_getElem? hbyte, Bool.not_eq_true'] at hink
    rw [hink]
    rfl
  have hbare : commentLength (p.advance (e.target - p.offset)).rest = 0 := by
    rw [hwithin.rest, htarget]
    exact hn.bare e he
  exact ⟨_, skims_blanks hrest hblank (by rw [hgap]; exact .stop hdark hbare), hwithin, htarget, hdark, hbare⟩

namespace Meets

/-- In the result the text is skipped, as comments. -/
theorem skims_text (hn : Notes is) (hm : Meets is k p p') (he : e ∈ is.all) (hstart : e.start = p.offset)
    {rest : Bytes} (hrest : p'.rest = e.text ++ rest)
    (hend : Skims true (p'.advance e.text.length) [] (p'.advance e.text.length)) :
    ∃ news, Skims true p' (news ++ []) (p'.advance e.text.length) ∧
      (∀ c ∈ news, c.isComment = true ∧ c.named = true ∧ c.role = "") ∧
      Heading is.result news (p'.advance e.text.length).offset (p'.advance e.text.length).row := by
  obtain ⟨k₁, hk₁, -, ⟨rfl, hnote⟩ | ⟨text, htext, hnote⟩⟩ := hn.note e he
  · rw [hstart] at hk₁
    exact hnote.skims hm.within' hrest (hm.line (hm.joint.unique hk₁)) hend
  · -- the text begins with a line feed
    have hsplit : p'.advance e.text.length = (p'.advance 1).advance text.length := by
      rw [Place.advance_add, htext, List.length_cons, Nat.add_comm]
    rw [hsplit] at hend ⊢
    rw [htext, List.cons_append] at hrest
    have hfeed : is.result.startsLine (p'.advance 1).offset = true := by
      rw [offset_advance_of_le (by rw [hrest]; simp)]
      refine Bytes.startsLine_of_feed ?_
      rw [← Nat.add_zero p'.offset, ← hm.within'.getElem?_rest, hrest]
      rfl
    obtain ⟨news, hskims, hnews⟩ :=
      hnote.skims (hm.within'.advance 1) (by rw [Place.rest_advance, hrest]; rfl) hfeed hend
    exact ⟨news, .blank hrest (by decide) hskims, hnews⟩

/-- **At its place a text is skipped**, and its comments with it. -/
theorem insert (hn : Notes is) (hm : Meets is k p p') (he : e ∈ is.all) (hstart : e.start = p.offset)
    (h : Skims true p xs q) : ∃ xs' q', Skims true p' xs' q' ∧ Reaches is p q p' q' xs xs' := by
  -- in the source there is only white space up to the code
  obtain ⟨q₁, hsource, hq, htarget, hdark, hbare⟩ := skims_gap hn hm.within he hstart
  have hsame := (h.extras_eq (Nat.le_refl _)).symm.trans (hsource.extras_eq (Nat.le_refl _))
  obtain ⟨rfl, rfl⟩ := Prod.mk.inj hsame
  obtain ⟨k', hk', -⟩ := hsource.mood hm.within hm.joint
  -- in the result there is the text
  have hbefore := hm.before
  rw [← hstart] at hbefore
  obtain ⟨hdrop, hbehind⟩ := hbefore.insert he
  rw [← htarget] at hbehind
  have hrest : p'.rest = e.text ++ is.result.drop (p'.offset + e.text.length) := by rw [hm.within'.rest, hdrop]
  have hoffset : (p'.advance e.text.length).offset = p'.offset + e.text.length := by
    rw [offset_advance_of_le]
    rw [hrest, List.length_append]
    exact Nat.le_add_right _ _
  rw [← hoffset] at hbehind
  have hend := skims_stop hn hk' hq (hm.within'.advance e.text.length) hbehind hdark hbare
  obtain ⟨news, hskims, hnews, hheading⟩ := hm.skims_text hn he hstart hrest hend
  have hnone (hnone : ∀ e ∈ is.all, e.target ≠ q.offset) : False := hnone e he htarget.symm
  exact ⟨_, _, hskims, hbehind, ⟨[], news, by simp, .nil, hnews, fun h => (hnone h).elim, fun _ => hheading⟩,
    fun _ => hheading.startsLine, fun h => (hnone h).elim⟩

/-- A byte of white space is passed in both. -/
theorem blank (hm : Meets is k p p') (hbehind : is.Behind p.offset p'.offset) {b : UInt8} {rest rest' : Bytes}
    (hrest : p.rest = b :: rest) (hrest' : p'.rest = b :: rest') (hwhite : Bytes.isBlank b = true) :
    Meets is (k.behind (b :: rest)) (p.advance 1) (p'.advance 1) := by
  have hoffset : (p.advance 1).offset = p.offset + 1 := offset_advance_of_le (by rw [hrest]; simp)
  have hoffset' : (p'.advance 1).offset = p'.offset + 1 := offset_advance_of_le (by rw [hrest']; simp)
  have hbyte : is.result[p'.offset]? = some b := by
    rw [← Nat.add_zero p'.offset, ← hm.within'.getElem?_rest, hrest']
    rfl
  refine ⟨joint_blank hm.within hm.joint hrest hwhite, ?_, hm.within.advance 1, hm.within'.advance 1, fun hline => ?_⟩
  -- the pair of places moves over one blank byte in both texts, and no insertion lies between them
  · rw [hoffset, hoffset']
    refine hbehind.before ?_ Nat.one_pos fun e _ hlt => hlt
    rw [← hoffset]
    exact (hm.within.advance 1).bounded
  · rw [behind_blank hwhite] at hline
    rw [hoffset']
    -- a line feed begins a line; any other blank leaves the line as it was
    by_cases hb : b = Bytes.newline
    · exact Bytes.startsLine_of_feed (by rw [hbyte, hb])
    · rw [if_neg hb] at hline
      refine Bytes.startsLine_of_blank (hm.line hline) (Nat.le_succ _) fun i hi hlt => ?_
      rw [show i = p'.offset by omega, inkAt_of_getElem? hbyte, hwhite]
      rfl

/-- A comment is passed in both. -/
theorem comment (hn : Notes is) (hm : Meets is k p p') (hbehind : is.Behind p.offset p'.offset)
    (hcomment : commentLength p.rest ≠ 0) : commentLength p'.rest = commentLength p.rest ∧
      Meets is (k.behind p.rest) (p.advance (commentLength p.rest)) (p'.advance (commentLength p.rest)) ∧
      Grown is (p.leaf "comment" true (commentLength p.rest)) (p'.leaf "comment" true (commentLength p.rest)) := by
  have hcode : commentLength (code.drop p.offset) ≠ 0 := by rwa [← hm.within.rest]
  have hsame : commentLength p'.rest = commentLength p.rest := by
    rw [hm.within'.rest, hm.within.rest]
    exact hn.comment hm.joint hbehind hcode
  have hlength' := (commentLength_cases (hsame ▸ hcomment)).1
  rw [hsame] at hlength'
  have hoffset := offset_advance_of_le (commentLength_cases hcomment).1
  have hoffset' := offset_advance_of_le hlength'
  have hclean : ∀ e ∈ is.all, p.offset < e.start → p.offset + commentLength p.rest ≤ e.start := fun e he hlt => by
    rw [hm.within.rest, ← pieceLength_comment hcode]
    exact (hn.piece_le hm.joint he hlt).2
  have hbefore : is.Before (p.offset + commentLength p.rest) (p'.offset + commentLength p.rest) := by
    refine hbehind.before ?_ (Nat.pos_of_ne_zero hcomment) hclean
    rw [← hoffset]
    exact (hm.within.advance _).bounded
  refine ⟨hsame, ⟨joint_comment hm.within hm.joint hcomment, by rwa [hoffset, hoffset'], hm.within.advance _,
    hm.within'.advance _, fun hline => ?_⟩, ?_⟩
  · -- a comment does not end a line
    rw [behind_comment hcomment] at hline
    split at hline
    · cases hline
    · rename_i hne
      exact absurd hline hne
  · have hmark : ("comment" == markKind) = false := rfl
    exact grown_leaf hmark true hbehind (by rwa [hoffset, hoffset']) (by rwa [hoffset])

end Meets

/-- What is reached from further on is reached. -/
theorem Reaches.from_advance (h : Reaches is (p.advance n) q (p'.advance n) q' xs xs') (hn : n ≤ p.rest.length)
    (hn' : n ≤ p'.rest.length) : Reaches is p q p' q' xs xs' where
  behind := h.behind
  comments := h.comments
  line := h.line
  moved hnone := by
    have hmoved := h.moved hnone
    rw [offset_advance_of_le hn, offset_advance_of_le hn'] at hmoved
    omega

/-- **What is skipped in the source is skipped in the result**, and the texts that are inserted there are skipped as
    comments.  Where a line feed is not skipped, none is inserted before it. -/
theorem Skims.twin (hn : Notes is) (h : Skims lines p xs q) (hm : Meets is k p p')
    (hmay : lines = true ∨ k.exposed = false) : ∃ xs' q', Skims lines p' xs' q' ∧ Reaches is p q p' q' xs xs' := by
  -- where a text is inserted, nothing but white space is left
  have hinsert {lines : Bool} {p q p' : Place} {xs : List Node} {k : Mood} (h : Skims lines p xs q)
      (hm : Meets is k p p') (hmay : lines = true ∨ k.exposed = false) (hins : ∃ e ∈ is.all, e.start = p.offset) :
      ∃ xs' q', Skims lines p' xs' q' ∧ Reaches is p q p' q' xs xs' := by
    obtain ⟨e, he, hstart⟩ := hins
    obtain ⟨k₁, hk₁, hexposed, -⟩ := hn.note e he
    rw [hstart] at hk₁
    rw [hm.joint.unique hk₁, hexposed] at hmay
    obtain rfl := hmay.resolve_right (by decide)
    exact hm.insert hn he hstart h
  induction h generalizing k p' with
  | @stop p hblank hcode =>
    by_cases hins : ∃ e ∈ is.all, e.start = p.offset
    · exact hinsert (.stop hblank hcode) hm hmay hins
    · have hfree : ∀ e ∈ is.all, e.start ≠ p.offset := fun e he hstart => hins ⟨e, he, hstart⟩
      have hbehind := hm.before.behind hfree
      exact ⟨[], p', skims_stop hn hm.joint hm.within hm.within' hbehind hblank hcode, hbehind,
        ⟨[], [], rfl, .nil, news_nil hm.before hfree _⟩, fun hline => hm.line (hm.joint.unique hline), fun _ => rfl⟩
  | @blank p q xs b rest hrest hblank h ih =>
    by_cases hins : ∃ e ∈ is.all, e.start = p.offset
    · exact hinsert (.blank hrest hblank h) hm hmay hins
    · have hbehind := hm.before.behind fun e he hstart => hins ⟨e, he, hstart⟩
      obtain ⟨rest', hrest'⟩ : ∃ rest', p'.rest = b :: rest' := by
        have hsame := head?_rest hm.within hm.within' hbehind
        rw [hrest, List.head?_cons] at hsame
        exact List.head?_eq_some_iff.mp hsame
      obtain ⟨xs', q', hskims, hreaches⟩ := ih (hm.blank hbehind hrest hrest' (Bool.and_eq_true_iff.mp hblank).1)
        ((skimmed_blank hblank k rest).may hmay)
      exact ⟨xs', q', .blank hrest' hblank hskims,
        hreaches.from_advance (by rw [hrest]; simp) (by rw [hrest']; simp)⟩
  | @comment p q xs hcomment h ih =>
    by_cases hins : ∃ e ∈ is.all, e.start = p.offset
    · exact hinsert (.comment hcomment h) hm hmay hins
    · have hfree : ∀ e ∈ is.all, e.start ≠ p.offset := fun e he hstart => hins ⟨e, he, hstart⟩
      obtain ⟨hsame, hnext, hgrown⟩ := hm.comment hn (hm.before.behind hfree) hcomment
      obtain ⟨xs', q', hskims, hreaches⟩ := ih hnext ((skimmed_comment hcomment lines k).may hmay)
      have hreaches' := hreaches.from_advance (commentLength_cases hcomment).1
        (hsame ▸ (commentLength_cases (hsame ▸ hcomment)).1)
      obtain ⟨ys, news, rfl, halong, hnews⟩ := hreaches.comments
      refine ⟨p'.leaf "comment" true (commentLength p.rest) :: (ys ++ news), q', ?_, hreaches'.behind,
        ⟨p'.leaf "comment" true (commentLength p.rest) :: ys, news, rfl, ?_, hnews⟩, hreaches'.line, hreaches'.moved⟩
      · rw [← hsame] at hskims ⊢
        exact .comment (by rwa [hsame]) hskims
      · exact .cons (news_nil hm.before hfree _) hgrown halong

/-! ### Terminals -/

/-- A token is no mark. -/
theorem mark_of_scan {form : Form} {kind : String} {named : Bool} {bytes : Bytes} (hclear : form.clear = true)
    (hscan : form.scan bytes = some (kind, named, n)) (hn : n ≠ 0) : (kind == markKind) = false := by
  -- a mark is spelled by no bytes at all, so it is enough that the token's own text is not empty
  have hne (hencode : Text.encode kind ≠ []) : (kind == markKind) = false := by
    rw [beq_eq_false_iff_ne]
    rintro rfl
    exact hencode (by decide)
  cases form with
  | word text =>
    simp only [Form.scan] at hscan
    split at hscan
    · rename_i hfound
      cases hscan
      rw [Bool.and_eq_true, beq_iff_eq] at hfound
      refine hne fun hnil => ?_
      rw [hnil, List.take_eq_nil_iff] at hfound
      rcases hfound.2 with hzero | rfl
      · exact hn hzero
      · exact hn rfl
    · cases hscan
  -- a name is never of the mark's kind, which is part of the form being clear
  | name kind' reserved =>
    simp only [Form.scan] at hscan
    split at hscan
    · cases hscan
      simpa [markKind] using (bne_iff_ne.mp hclear)
    · cases hscan
  | symbol accepted rivals =>
    simp only [Form.scan] at hscan
    split at hscan
    · split at hscan
      · rename_i hmem
        cases hscan
        have htext : isSymbolText kind = true :=
          List.all_eq_true.mp hclear kind (List.mem_append_left _ (List.contains_iff_mem.mp hmem))
        refine hne fun hnil => ?_
        rw [isSymbolText, hnil] at htext
        cases htext
      · cases hscan
    · cases hscan
  | terminator =>
    simp only [Form.scan] at hscan
    split at hscan
    · split_ifs at hscan <;> cases hscan <;> rfl
    · cases hscan
  | sameLine => cases hscan
  | finish => cases hscan
  | _ => cases hscan; rfl

/-- Behind a token that is no line feed a line does not begin. -/
theorem feed_of_line {form : Form} {kind : String} {named : Bool} {o : Nat} (hclear : form.clear = true)
    (hk : Joint code k o) (hcode : commentLength (code.drop o) = 0)
    (hscan : form.scan (code.drop o) = some (kind, named, n)) (hmood : Mood.line ∈ form.moods k)
    (hline : Joint code .line (o + n)) : n = 1 ∧ code[o]? = some Bytes.newline := by
  have htext (t : String) : Mood.line ∉ textMoods k t := by
    unfold textMoods
    split
    · unfold byteMoods
      split_ifs <;> decide
    · decide
  cases form with
  | symbol accepted rivals =>
    exfalso
    clear hclear hscan
    rw [Form.moods] at hmood
    induction accepted with
    | nil => cases hmood
    | cons t accepted ih =>
      rw [List.foldr_cons, Finset.mem_union] at hmood
      exact hmood.elim (htext t) ih
  | terminator =>
    cases hdrop : code.drop o with
    | nil => rw [hdrop] at hscan; cases hscan
    | cons b rest =>
      have hbyte : code[o]? = some b := by rw [← List.head?_drop, hdrop]; rfl
      rw [hdrop] at hscan hcode
      -- behind a semicolon or a zero the mood is another one
      have hother (hb : b = 0x3b ∨ b = 0) : ¬Joint code .line (o + 1) := fun hline => by
        have hpiece := pieceLength_stop (b := b) (by rcases hb with rfl | rfl <;> decide) rest
        have hstep := hk.step (by rw [hdrop, hpiece]; decide)
        rw [hdrop, hpiece] at hstep
        have hsame := hline.unique hstep
        rw [Mood.behind, hcode] at hsame
        rcases hb with rfl | rfl <;> cases k <;> cases hsame
      simp only [Form.scan] at hscan
      split_ifs at hscan with hfeed hsemicolon hzero
      · cases hscan
        exact ⟨rfl, by rw [hbyte, beq_iff_eq.mp hfeed]⟩
      · cases hscan
        exact absurd hline (hother (.inl (beq_iff_eq.mp hsemicolon)))
      · cases hscan
        exact absurd hline (hother (.inr (beq_iff_eq.mp hzero)))
  | sameLine => cases hscan
  | finish => cases hscan
  | _ => cases Finset.mem_singleton.mp hmood

/-- The readers of the source and of the result are in step. -/
structure InStep (is : Insertions code) (k : Mood) (s s' : State) : Prop where
  meets : Meets is k (entry s.place) (entry s'.place)
  sane : s.place.Sane
  sane' : s'.place.Sane
  shift : (entry s.place).offset + s'.place.offset = (entry s'.place).offset + s.place.offset

/-- The readers have read what is behind the white space. -/
theorem InStep.of_meets {s s' : State} (h : Meets is k s.place s'.place) (hs : s.place.Sane) (hs' : s'.place.Sane)
    (hentry : s.place.offset ≠ 0 ∨ s.place.rest = []) (hentry' : s'.place.offset ≠ 0 ∨ s'.place.rest = []) :
    InStep is k s s' := by
  have he := entry_eq hentry
  have he' := entry_eq hentry'
  refine ⟨by rwa [he, he'], hs, hs', ?_⟩
  rw [he, he', Nat.add_comm]

/-- At the end of the source is the end of the result. -/
theorem before_length {o o' : Nat} (h : is.Behind o o') (hend : code.length ≤ o) : is.Before o o' := by
  have hlater (e : Insertion) (he : e ∈ is.all) : e.start ≤ e.target ∧ e.target < o := by
    have horder := is.ordered e he
    omega
  refine ⟨fun e he => .inr (hlater e he).2, ?_, h.bounded, h.bounded'⟩
  rw [h.rest]
  congr 1
  refine List.filter_congr fun e he => ?_
  have := hlater e he
  rw [decide_eq_decide]
  omega

/-- Readers that were in step, behind what they have skipped: the one behind comments of the source, the other behind
    these and those that were inserted. -/
structure Abreast (is : Insertions code) (lines : Bool) (k k₁ : Mood) (s s' : State) (p p' : Place)
    (xs xs' : List Node) : Prop where
  start : InStep is k s s'
  skims : Skims lines (entry s.place) xs p
  skims' : Skims lines (entry s'.place) xs' p'
  reaches : Reaches is (entry s.place) p (entry s'.place) p' xs xs'
  joint : Joint code k₁ p.offset
  skimmed : k.Skimmed lines k₁

/-- What is skipped before a terminal is skipped in both. -/
theorem InStep.abreast (hn : Notes is) {s s' : State} (h : InStep is k s s') (hmay : lines = true ∨ k.exposed = false) :
    ∃ k₁ p p' xs xs', Abreast is lines k k₁ s s' p p' xs xs' := by
  have hsteps : (entry s.place).rest.length ≤ (entry s.place).limit := h.sane.leads (.advance _ _)
  have hskims := extras_skims lines hsteps
  obtain ⟨xs', p', hskims', hreaches⟩ := hskims.twin hn h.meets hmay
  obtain ⟨k₁, hk₁, hskimmed⟩ := hskims.mood h.meets.within h.meets.joint
  exact ⟨k₁, _, p', _, xs', h, hskims, hskims', hreaches, hk₁, hskimmed⟩

/-- Where one reader is at the end or at a line feed, one at the same byte is at no other byte. -/
theorem feed_of_head? {A B rest : Bytes} {b : UInt8} (h : A.head? = B.head?)
    (hstop : B = [] ∨ ∃ rest, B = Bytes.newline :: rest) (hrest : A = b :: rest) : b = Bytes.newline := by
  rw [hrest, List.head?_cons] at h
  rcases hstop with rfl | ⟨rest, rfl⟩ <;> cases h
  rfl

namespace Abreast

variable {k₁ : Mood} {s s' : State} {form : Form} {trail trail' : Trail}

theorem within (h : Abreast is lines k k₁ s s' p p' xs xs') : p.Within code ∧ p'.Within is.result :=
  ⟨h.start.meets.within.leads h.skims.leads, h.start.meets.within'.leads h.skims'.leads⟩

theorem sane (h : Abreast is lines k k₁ s s' p p' xs xs') : p.Sane ∧ p'.Sane :=
  ⟨h.start.sane.leads ((Place.Leads.advance _ _).trans h.skims.leads),
    h.start.sane'.leads ((Place.Leads.advance _ _).trans h.skims'.leads)⟩

/-- Both readers are at the same byte, or both at the end. -/
theorem head?_eq (h : Abreast is lines k k₁ s s' p p' xs xs') : p'.rest.head? = p.rest.head? :=
  head?_rest h.within.1 h.within.2 h.reaches.behind

/-- Both find the same. -/
theorem scan_eq (hn : Notes is) (h : Abreast is lines k k₁ s s' p p' xs xs') (hclear : form.clear = true) :
    form.scan p'.rest = form.scan p.rest := by
  obtain ⟨hcode, hblank⟩ := h.skims.stops
  rw [h.within.1.rest] at hcode hblank ⊢
  rw [h.within.2.rest]
  exact hn.scan_eq h.joint h.reaches.behind hcode (fun b rest hrest => (hblank b rest hrest).imp_right (·.2)) hclear

theorem nil_iff (h : Abreast is lines k k₁ s s' p p' xs xs') : p'.rest = [] ↔ p.rest = [] := by
  rw [← List.head?_eq_none_iff, h.head?_eq, List.head?_eq_none_iff]

/-- At the end both have read their comments, and no text is inserted there. -/
theorem finish (h : Abreast is lines k k₁ s s' p p' xs xs') (hrest : p.rest = []) :
    table.Level (InStep is) (Along is (Grown is)) Mood.all s s' (some (xs, { s with place := p }))
      (some (xs', { s' with place := p' })) := by
  obtain ⟨hp, hp'⟩ := h.within
  obtain ⟨ys, news, rfl, halong, hnews⟩ := h.reaches.comments
  have hend : code.length ≤ p.offset := by
    have hlength := hp.length_rest
    rw [hrest, List.length_nil] at hlength
    omega
  -- no insertion is aimed at the end of the code: each one stands before some ink
  have hnone (e : Insertion) (he : e ∈ is.all) : e.target ≠ p.offset := by
    have horder := is.ordered e he
    omega
  have hmeets : Meets is k₁ p p' :=
    ⟨h.joint, before_length h.reaches.behind hend, hp, hp', fun hline => h.reaches.line (hline ▸ h.joint)⟩
  rw [hnews.none hnone, List.append_nil]
  refine .read halong ⟨k₁, by rw [Mood.all]; cases k₁ <;> decide,
    .of_meets hmeets h.sane.1 h.sane.2 (.inr hrest) (.inr (h.nil_iff.mpr hrest))⟩ ?_
  have hmoved := h.reaches.moved hnone
  -- both terminals moved on or both stayed, since the places were in step when they began
  have hshift := h.start.shift
  have hle := ((Place.Leads.advance _ _).trans h.skims.leads).offset_le
  have hle' := ((Place.Leads.advance _ _).trans h.skims'.leads).offset_le
  show s.place.offset = p.offset ∧ s'.place.offset = p'.offset ∨ s.place.offset < p.offset ∧ s'.place.offset < p'.offset
  omega

/-- **At a token** both have read their comments and the token, and they are in step again. -/
theorem token (hn : Notes is) (h : Abreast is lines k k₁ s s' p p' xs xs') (hclear : form.clear = true)
    {kind : String} {named : Bool} {size : Nat} (hscan : form.scan p.rest = some (kind, named, size)) (hsize : size ≠ 0)
    (hsub : form.moods k₁ ⊆ form.moods k) :
    table.Level (InStep is) (Along is (Grown is)) (form.moods k) s s'
      (some (xs ++ [p.leaf kind named size], ⟨p.advance size, trail⟩))
      (some (xs' ++ [p'.leaf kind named size], ⟨p'.advance size, trail'⟩)) := by
  obtain ⟨hp, hp'⟩ := h.within
  obtain ⟨ys, news, rfl, halong, hnews⟩ := h.reaches.comments
  have hcode := h.skims.stops.1
  rw [hp.rest] at hscan hcode
  obtain ⟨k', hk', hcross⟩ := Form.crosses hclear h.joint hcode hscan hsize
  -- no text begins inside of the token
  have hbound := hcross.joint.le_length
  have hclean (e : Insertion) (he : e ∈ is.all) (hlt : p.offset < e.start) : p.offset + size ≤ e.start := by
    obtain ⟨k₂, hk₂, hexposed, -⟩ := hn.note e he
    exact hcross.barrier hk₂ hexposed hlt
  have hbefore := h.reaches.behind.before hbound (Nat.pos_of_ne_zero hsize) hclean
  have hoffset : (p.advance size).offset = p.offset + size := offset_advance_of_le (by rw [hp.length_rest]; omega)
  have hoffset' : (p'.advance size).offset = p'.offset + size :=
    offset_advance_of_le (by have := hbefore.bounded'; rw [hp'.length_rest]; omega)
  have hmeets : Meets is k' (p.advance size) (p'.advance size) := by
    refine ⟨by rw [hoffset]; exact hcross.joint, by rwa [hoffset, hoffset'], hp.advance _, hp'.advance _, ?_⟩
    -- a line begins behind a line feed, which is in the result too
    rintro rfl
    obtain ⟨rfl, hbyte⟩ := feed_of_line hclear h.joint hcode hscan hk' hcross.joint
    rw [hoffset']
    refine Bytes.startsLine_of_feed ?_
    rw [← hbyte, ← List.head?_drop, ← List.head?_drop]
    exact Notes.head?_eq h.reaches.behind
  refine .read ?_ ⟨k', hsub hk', .of_meets hmeets (h.sane.1.leads (.advance _ _)) (h.sane.2.leads (.advance _ _))
    (.inl (by show (p.advance size).offset ≠ 0; omega)) (.inl (by show (p'.advance size).offset ≠ 0; omega))⟩ ?_
  · rw [List.append_assoc]
    have hmark := mark_of_scan hclear hscan hsize
    refine halong.append (.cons hnews (grown_leaf hmark named h.reaches.behind ?_ ?_) .nil)
    · rwa [hoffset, hoffset']
    · rwa [hoffset]
  · have hle := ((Place.Leads.advance _ _).trans h.skims.leads).offset_le
    have hle' := ((Place.Leads.advance _ _).trans h.skims'.leads).offset_le
    show s.place.offset = (p.advance size).offset ∧ s'.place.offset = (p'.advance size).offset ∨
      s.place.offset < (p.advance size).offset ∧ s'.place.offset < (p'.advance size).offset
    omega

end Abreast

/-- **The readers stay in step at the terminals** that may be tried. -/
theorem level_terminal (hn : Notes is) {bound : Bool} {t : Terminal} {ks : Finset Mood} {s s' : State}
    (hnext : t.next bound k = some ks) (h : InStep is k s s') :
    table.Level (InStep is) (Along is (Grown is)) ks s s' (readTerminal bound t s).toOption
      (readTerminal bound t s').toOption := by
  obtain ⟨hclear, rfl, hmay⟩ := next_spec hnext
  have hlines : (!t.sensitive bound) = true ∨ k.exposed = false := by
    cases hsensitive : t.sensitive bound with
    | true => exact .inr (hmay hsensitive)
    | false => exact .inl rfl
  obtain ⟨k₁, p, p', xs, xs', hboth⟩ := h.abreast hn hlines
  have hscan := hboth.scan_eq hn hclear
  have hfinds := readTerminal_finds hboth.skims h.sane
  have hfinds' := readTerminal_finds hboth.skims' h.sane'
  generalize (readTerminal bound t s).toOption = r? at *
  generalize (readTerminal bound t s').toOption = r'? at *
  -- what the one comes to at a terminal, the other does as well
  cases hfinds with
  | refused hsame hfinish hnone =>
    cases hfinds' with
    | refused => exact .refused
    | sameLine hform hrest hb => exact absurd (feed_of_head? hboth.head?_eq (hsame hform) hrest) hb
    | finish hform hrest => exact absurd (hboth.nil_iff.mp hrest) (hfinish hform)
    | token hfound hsize => exact absurd (hnone _ _ _ (hscan ▸ hfound)) hsize
  | sameLine hform hrest hb =>
    cases hfinds' with
    | refused hsame => exact absurd (feed_of_head? hboth.head?_eq.symm (hsame hform) hrest) hb
    | sameLine => exact .read .nil ⟨k, by rw [hform]; simp [Form.moods], h⟩ (.refl _ _)
    | finish hform' => rw [hform] at hform'; cases hform'
    | token hfound => rw [hform] at hfound; cases hfound
  | finish hform hrest =>
    cases hfinds' with
    | refused _ hfinish => exact absurd (hboth.nil_iff.mpr hrest) (hfinish hform)
    | sameLine hform' => rw [hform] at hform'; cases hform'
    | finish =>
      rw [hform]
      exact hboth.finish hrest
    | token hfound => rw [hform] at hfound; cases hfound
  | @token kind named size hfound hsize trail =>
    cases hfinds' with
    | refused _ _ hnone => exact absurd (hnone _ _ _ (hscan ▸ hfound)) hsize
    | sameLine hform => rw [hform] at hfound; cases hfound
    | finish hform => rw [hform] at hfound; cases hfound
    | token hfound' =>
      rw [hscan, hfound] at hfound'
      cases hfound'
      refine hboth.token hn hclear hfound hsize (moods_subset_of_skimmed hboth.skimmed ?_ fun hform => ?_)
      · rintro hform
        rw [hform] at hfound
        cases hfound
      · have hsensitive : t.sensitive bound = true := by rw [Terminal.sensitive, hform]
        exact hboth.skimmed.same (by rw [hsensitive]; rfl) (hmay hsensitive)

/-- **The readers of the source and of the result are in step.** -/
theorem twins (hn : Notes is) : table.Twins moods (InStep is) (Along is (Grown is)) where
  nil := .nil
  append := .append
  wrap := Along.wrap
  gather := Along.gather
  assign h := h.assign _
  leaf hnext h := level_terminal hn hnext h

end Docsmith.Go
