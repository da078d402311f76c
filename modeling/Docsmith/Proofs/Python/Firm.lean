import Docsmith.Proofs.Grammar.Whole
import Docsmith.Proofs.Python.Bodies
import Docsmith.Proofs.Python.Literal

namespace Docsmith.Python

/-!
# Where the nodes of Python sources begin and end

Tokens and comments begin and end between the characters of a source, and so do all constructs.  A token begins with
a character that is no white space, unless it is a part of a string literal; then so does each construct, because
it begins with a token.  Only a block may be empty.

* `Inky`: a node is not empty and begins with ink, and `Read`: what was read from one offset to another.
* `Poised`: a state of the reader between two characters.
* `readTerminal_read`: a terminal and the comments before it cut no character, and they begin with ink.
-/

open Grammar SourceTree

variable {code : Bytes} {p q : Place} {s s' : State} {xs ys : List Node} {n : Node} {a b : Nat}

/-- The kinds of nodes that may be empty or begin with white space. -/
def isLoose (kind : String) : Bool :=
  kind == markKind || kind == "string_content" || kind == "format_text" || kind == "block"

/-- The node is not empty, and it begins with a character that is no white space. -/
structure Inky (code : Bytes) (n : Node) : Prop where
  dark : code.Dark n.start
  size : n.start < n.stop

/-- What was read from one offset to another: nodes that cut no character, and begin with ink unless they are of
    some kinds. -/
structure Read (code : Bytes) (a : Nat) (xs : List Node) (b : Nat) : Prop where
  lined : Lined code.Whole a xs b
  inky : ∀ x ∈ xs, isLoose x.kind = false → Inky code x

namespace Read

theorem nil (h : a ≤ b) : Read code a [] b := ⟨h, fun x hx => by cases hx⟩

theorem from_le {c : Nat} (h : Read code b xs c) (hab : a ≤ b) : Read code a xs c := ⟨h.lined.from_le hab, h.inky⟩

theorem to_le {c : Nat} (h : Read code a xs b) (hbc : b ≤ c) : Read code a xs c := by
  have hlined : Lined code.Whole a (xs ++ []) c := h.lined.append hbc
  rw [List.append_nil] at hlined
  exact ⟨hlined, h.inky⟩

theorem append {c : Nat} (h : Read code a xs b) (h' : Read code b ys c) : Read code a (xs ++ ys) c :=
  ⟨h.lined.append h'.lined, fun x hx => (List.mem_append.mp hx).elim (h.inky x) (h'.inky x)⟩

end Read

/-- The state is between two characters of a source, and all literals that are open are so by a quote. -/
structure Poised (code : Bytes) (s : State) : Prop where
  between : s.place.Between code
  sane : s.place.Sane
  quoted : Quoted s

/-- Further on in the source a state stays as it is between two characters. -/
theorem Poised.at (h : Poised code s) (hq : q.Between code) (hleads : s.place.Leads q) :
    Poised code { s with place := q } := ⟨hq, h.sane.leads hleads, h.quoted⟩

/-! ### White space, comments and joints -/

/-- The node of some bytes is inky, if there is ink where it begins. -/
theorem inky_leaf (h : p.Within code) (hdark : code.Dark p.offset) (kind : String) (named : Bool) {size : Nat}
    (hsize : size ≠ 0) : Inky code (p.leaf kind named size) := by
  refine ⟨hdark, ?_⟩
  obtain ⟨x, rest, hdrop, -⟩ := hdark
  show p.offset < (p.advance size).offset
  rw [Place.offset_advance, h.rest, hdrop, List.length_cons]
  omega

/-- What begins with a visible byte begins with ink. -/
theorem dark_of_rest {x : UInt8} (h : p.Within code) (hx : p.rest[0]? = some x) (hgraph : isGraph x = true) :
    code.Dark p.offset := by
  rw [h.getElem?_rest, Nat.add_zero] at hx
  exact Bytes.dark_of_graph hx hgraph

theorem between_blank (h : p.Between code) : (p.advance (blankLength p.rest)).Between code := by
  unfold blankLength
  split
  · rename_i b rest hrest
    split
    · exact h.last Nat.one_ne_zero (by rw [hrest]; rfl) (Bytes.ascii_of_isBlank ‹_›)
    · split
      · rename_i hmarker
        rw [Bool.or_eq_true, Bool.or_eq_true] at hmarker
        rcases hmarker with (hmarker | hmarker) | hmarker
        · exact h.marker hmarker fun rest => ⟨0xfeff, rfl⟩
        · exact h.marker hmarker fun rest => ⟨0x2060, rfl⟩
        · exact h.marker hmarker fun rest => ⟨0x200b, rfl⟩
      · exact h
  · exact h

theorem skipBlanks_between (steps : Nat) (h : p.Between code) : (skipBlanks steps p).Between code := by
  induction steps generalizing p with
  | zero => exact h
  | succ steps ih =>
    unfold skipBlanks
    dsimp only
    split
    · exact h
    · exact ih (between_blank h)

/-- A comment or joint cuts no character, and begins with ink. -/
theorem extra?_read (h : p.Between code) (hextra : extra? p = some (n, q)) :
    Read code p.offset [n] q.offset ∧ q.Between code := by
  have hstart := skipBlanks_between p.limit h
  have hle := (skipBlanks_leads p.limit p).offset_le
  unfold extra? at hextra
  dsimp only at hextra
  generalize skipBlanks p.limit p = r at hstart hle hextra
  have hread {kind : String} {size : Nat} {x : UInt8} (hnext : (r.advance size).Between code) (hsize : size ≠ 0)
      (hx : r.rest[0]? = some x) (hgraph : isGraph x = true) :
      Read code p.offset [r.leaf kind true size] (r.advance size).offset := by
    refine ⟨(hstart.lined_leaf hnext kind true).from_le hle, fun y hy _ => ?_⟩
    rw [List.mem_singleton.mp hy]
    exact inky_leaf hstart.toWithin (dark_of_rest hstart.toWithin hx hgraph) kind true hsize
  split at hextra
  · rename_i b rest hrest
    split at hextra
    · -- a comment
      rename_i hb
      cases hextra
      have hnext : (r.advance (lineLength r.rest)).Between code := by
        refine hstart.next fun x hx => ?_
        rcases drop_lineLength r.rest with hnil | ⟨c, more, hdrop, hc⟩
        · rw [← List.head?_drop, hnil] at hx
          cases hx
        · rw [← List.head?_drop, hdrop] at hx
          cases hx
          rcases hc with rfl | rfl <;> decide
      refine ⟨hread hnext ?_ (by rw [hrest]; rfl) (by rw [beq_iff_eq.mp hb]; decide), hnext⟩
      rw [hrest, beq_iff_eq.mp hb]
      exact Nat.succ_ne_zero _
    · split at hextra
      · cases hextra
      · -- a backslash and the end of its line
        rename_i hjoint
        cases hextra
        have hsize : jointLength r.rest ≠ 0 := by simpa using hjoint
        rcases jointLength_cases hsize with ⟨t, hbytes, hlength⟩ | ⟨t, hbytes, hlength⟩ | ⟨hbytes, hlength⟩
        all_goals
          have hnext : (r.advance (jointLength r.rest)).Between code :=
            hstart.last hsize (by rw [hlength, hbytes]; rfl) (by decide)
          exact ⟨hread hnext hsize (by rw [hbytes]; rfl) (by decide), hnext⟩
  · cases hextra

/-- The comments before a token cut no character, and begin with ink. -/
theorem extrasUntil_read (stop : Place → Bool) (steps : Nat) (h : p.Between code) :
    Read code p.offset (extrasUntil stop steps p).1 (extrasUntil stop steps p).2.1.offset ∧
      (extrasUntil stop steps p).2.1.Between code := by
  induction steps generalizing p with
  | zero => exact ⟨.nil (Nat.le_refl _), h⟩
  | succ steps ih =>
    unfold extrasUntil
    split
    · exact ⟨.nil (Nat.le_refl _), h⟩
    · split
      · exact ⟨.nil (Nat.le_refl _), h⟩
      · rename_i m q hextra
        obtain ⟨hread, hnext⟩ := extra?_read h hextra
        obtain ⟨hmore, hend⟩ := ih hnext
        exact ⟨hread.append hmore, hend⟩

/-! ### Reading terminals -/

/-- A node of what a form finds cuts no character, and begins with ink unless it is a piece of a literal. -/
theorem read_found {kind : String} {size : Nat} (h : p.Between code) (hfound : Found kind p.rest size)
    (hsize : size ≠ 0) (named : Bool) :
    Read code p.offset [p.leaf kind named size] (p.advance size).offset ∧ (p.advance size).Between code := by
  -- the three kinds of token end between two characters for different reasons
  have hnext : (p.advance size).Between code := by
    cases hfound with
    | name hname =>
      rw [hname]
      exact h.name
    | framed hframed =>
      obtain ⟨x, hx, hgraph⟩ := hframed.last
      exact h.last hsize hx (Bytes.ascii_of_isGraph hgraph)
    | piece _ hnext => exact h.next hnext
  refine ⟨⟨h.lined_leaf hnext kind named, fun y hy hkind => ?_⟩, hnext⟩
  rw [List.mem_singleton.mp hy] at hkind ⊢
  -- a token of code begins with ink, and one of the loose pieces need not
  cases hfound with
  | name hname =>
    rw [hname, h.toWithin.rest] at hsize
    exact inky_leaf h.toWithin (Bytes.dark_of_name hsize) kind named (hname.symm ▸ h.toWithin.rest.symm ▸ hsize)
  | framed hframed =>
    obtain ⟨x, hx, hgraph⟩ := hframed.first
    exact inky_leaf h.toWithin (dark_of_rest h.toWithin hx hgraph) kind named hsize
  | piece hpiece =>
    have hloose : isLoose kind = true := by rcases hpiece with rfl | rfl <;> rfl
    exact absurd (hloose.symm.trans hkind) (by simp)

/-- The literals that are open after a form has been read are so by a quote. -/
theorem quoted_after {form : Form} {bytes : Bytes} (hs : Quoted s) :
    ∀ q ∈ form.quotesAfter s bytes, isQuote q.mark = true := by
  intro q hq
  unfold Form.quotesAfter at hq
  split at hq
  · rcases List.mem_append.mp hq with hq | hq
    · rw [Option.mem_toList, Option.map_eq_some_iff] at hq
      obtain ⟨⟨q', n⟩, hopen, rfl⟩ := hq
      exact (openAt?_spec hopen).2.2
    · exact hs q hq
  · exact hs q (List.mem_of_mem_drop hq)
  · exact hs q hq

/-- Code is read behind the comments before it. -/
theorem readCode_read {form : Form} {comments : List Node} (hs : Poised code s) (hinked : form.inked = true)
    (hcomments : Read code a comments p.offset) (hp : p.Between code) (hsane : p.Sane)
    (h : readCode form comments p s = .ok (xs, s')) :
    Read code a xs s'.place.offset ∧ Poised code s' := by
  have hstart : (if form.immediate then p else skipBlanks p.limit p).Between code ∧
      -- the form may have to stand where it is; otherwise the blanks before it are skipped first
      p.Leads (if form.immediate then p else skipBlanks p.limit p) := by
    split
    · exact ⟨hp, .refl p⟩
    · exact ⟨skipBlanks_between _ hp, skipBlanks_leads _ p⟩
  unfold readCode at h
  dsimp only at h
  generalize (if form.immediate then p else skipBlanks p.limit p) = r at hstart h
  split at h
  · rename_i kind named size hscan
    split at h
    · cases h
    · rename_i hsize
      cases h
      have hfound := scan_found hs.quoted hscan hinked (by simpa using hsize)
      obtain ⟨hread, hnext⟩ := read_found hstart.1 hfound (by simpa using hsize) named
      refine ⟨hcomments.append (hread.from_le hstart.2.offset_le), hnext, ?_, quoted_after hs.quoted⟩
      exact hsane.leads (hstart.2.trans (.advance r size))
  · cases h

/-- A mark is read behind the comments before it. -/
theorem readMark_read {stop : Place → Bool} {ended : Bool} {update : Gap → State → State} (hs : Poised code s)
    (h : readMark stop ended s update = .ok (xs, s'))
    (hupdate : ∀ g s, (update g s).place = s.place ∧ (update g s).quotes = s.quotes) :
    Read code s.place.offset xs s'.place.offset ∧ Poised code s' := by
  obtain ⟨hread, hend⟩ := extrasUntil_read stop (s.place.limit + 1) hs.between
  have hleads := extrasUntil_leads stop (s.place.limit + 1) s.place
  unfold readMark at h
  dsimp only at h
  split at h
  · rename_i comments q hextras
    rw [hextras] at hread hend hleads
    cases h
    -- the update changes the gap that is open, but neither the place nor the quotes
    have hupdated := hupdate ((gapOver q).getD {}) { s with place := q }
    generalize update ((gapOver q).getD {}) { s with place := q } = s₁ at hupdated
    obtain ⟨rfl, hquotes⟩ := hupdated
    refine ⟨hread.append ⟨hend.lined_leaf (n := 0) hend _ _, fun x hx hkind => ?_⟩,
      hend, hs.sane.leads hleads, fun q hq => hs.quoted q (hquotes ▸ hq)⟩
    rw [List.mem_singleton.mp hx] at hkind
    cases hkind
  · cases h

/-- **A terminal and the comments before it cut no character, and begin with ink.** -/
theorem readTerminal_read {mode : Mode} {t : Terminal} (h : readTerminal mode t s = .ok (xs, s'))
    (ht : t.form.inked = true) (hs : Poised code s) :
    Read code s.place.offset xs s'.place.offset ∧ Poised code s' := by
  -- the comments up to a place, and the white space behind them
  have hcomments (stop : Place → Bool) :
      let taken := extrasUntil stop (s.place.limit + 1) s.place
      Read code s.place.offset taken.1 taken.2.1.offset ∧ taken.2.1.Between code ∧ s.place.Leads taken.2.1 :=
    ⟨(extrasUntil_read stop _ hs.between).1, (extrasUntil_read stop _ hs.between).2, extrasUntil_leads stop _ _⟩
  have hblanks (stop : Place → Bool) :
      let taken := extrasUntil stop (s.place.limit + 1) s.place
      Read code s.place.offset taken.1 (skipBlanks taken.2.1.limit taken.2.1).offset ∧
        Poised code { s with place := skipBlanks taken.2.1.limit taken.2.1 } := by
    obtain ⟨hread, hend, hleads⟩ := hcomments stop
    exact ⟨hread.to_le (skipBlanks_leads _ _).offset_le,
      hs.at (skipBlanks_between _ hend) (hleads.trans (skipBlanks_leads _ _))⟩
  obtain ⟨form, continues⟩ := t
  cases hform : form.isCode with
  | true =>
    cases himmediate : form.immediate with
    | true =>
      have hread : readCode form [] s.place s = .ok (xs, s') := by
        cases form <;> first | exact h | cases himmediate
      exact readCode_read hs ht (.nil (Nat.le_refl _)) hs.between hs.sane hread
    | false =>
      obtain ⟨comments, q, held, hextras, hread⟩ := readTerminal_eq hform himmediate h
      have hbefore := hcomments fun _ => false
      rw [hextras] at hbefore
      obtain ⟨hbefore, hend, hleads⟩ := hbefore
      exact readCode_read hs ht hbefore hend (hs.sane.leads hleads) hread
  | false =>
    cases form with
    | begin =>
      simp only [readTerminal] at h
      split at h
      · cases h
      · rename_i comments q hextras
        split at h
        · cases h
        · cases h
          have hread := hblanks fun q => (gapOver q).any (·.closes s.depth)
          rw [hextras] at hread
          exact hread
    | newline =>
      simp only [readTerminal] at h
      exact readMark_read hs h fun _ _ => ⟨rfl, rfl⟩
    | indent =>
      simp only [readTerminal] at h
      exact readMark_read hs h fun _ _ => ⟨rfl, rfl⟩
    | dedent =>
      simp only [readTerminal] at h
      exact readMark_read hs h fun _ _ => ⟨rfl, rfl⟩
    | sameLine =>
      obtain ⟨rfl, rfl⟩ := readTerminal_sameLine h
      exact ⟨.nil (Nat.le_refl _), hs⟩
    | finish =>
      simp only [readTerminal] at h
      split at h
      · cases h
        exact hblanks fun _ => false
      · cases h
    | _ => cases hform

end Docsmith.Python
