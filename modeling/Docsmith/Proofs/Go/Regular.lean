import Docsmith.Go.Declarations
import Docsmith.Proofs.Go.Tokens
import Docsmith.Proofs.Grammar.Laid

namespace Docsmith.Go

open Grammar

/-!
# Go sources as trees

The grammar of Go skips nothing but white space, and each of its tokens shows where it ends.  So the tree
of a source is as regular as a tree can be.

* `readTerminal_cases`, `readTerminal_sorted`: what reading a terminal comes to.
* `readTerminal_placed`: a terminal and the comments before it lie one after another.
* `admitted`: what the grammar speaks of, and `admitted_covers`: it does.
* `yields_of_parse`, `placed_of_parse`: what a parsed source is made of, and `regular_of_parse`: its tree is
  regular.
* `plain_of_parse`, `groupRule_of_parse`: its comments, and its declarations.
-/

variable {code : Bytes} {p : Place} {s s' : State} {xs : List Node}

/-! ### Reading terminals -/

theorem extras_leads (lines : Bool) (steps : Nat) (p : Place) :
    p.Leads (extras lines steps p).2 := by
  induction steps generalizing p with
  | zero => exact .refl p
  | succ steps ih =>
    rw [extras]
    split
    · exact .refl p
    · split
      · exact (Place.Leads.advance p 1).trans (ih _)
      · dsimp only
        split
        · exact .refl p
        · exact (Place.Leads.advance p _).trans (ih _)

/-- What reading a terminal of any form comes to: nothing, the comments before it, or these and a token. -/
theorem readTerminal_cases {bound : Bool} {t : Terminal}
    (h : readTerminal bound t s = .ok (xs, s')) :
    t.form = .sameLine ∧ xs = [] ∧ s' = s ∨ ∃ lines steps,
      let found := extras lines steps (s.place.advance (markLength s.place))
      t.form = .finish ∧ xs = found.1 ∧ s'.place = found.2 ∨ ∃ kind named size, size ≠ 0 ∧
        t.form.scan found.2.rest = some (kind, named, size) ∧
        xs = found.1 ++ [found.2.leaf kind named size] ∧ s'.place = found.2.advance size := by
  -- two forms read no token: one looks whether the line goes on, the other whether the source does
  obtain ⟨form, continues⟩ := t
  unfold readTerminal at h
  cases form with
  | sameLine =>
    dsimp only at h
    split at h
    · split at h
      · cases h
      · cases h
        exact .inl ⟨rfl, rfl, rfl⟩
    · cases h
  | finish =>
    dsimp only at h
    split at h
    · cases h
      exact .inr ⟨_, _, .inl ⟨rfl, rfl, rfl⟩⟩
    · cases h
  | _ =>
    dsimp only at h
    split at h
    · rename_i kind named size hscan
      split at h
      · cases h
      · rename_i hsize
        cases h
        exact .inr ⟨_, _, .inr ⟨kind, named, size, by simpa using hsize, hscan, rfl, rfl⟩⟩
    · cases h

/-- Reading a terminal moves on in the source. -/
theorem readTerminal_leads {bound : Bool} {t : Terminal}
    (h : readTerminal bound t s = .ok (xs, s')) : s.place.Leads s'.place := by
  have hextras (lines : Bool) (steps : Nat) :
      s.place.Leads (extras lines steps (s.place.advance (markLength s.place))).2 :=
    (Place.Leads.advance _ _).trans (extras_leads _ _ _)
  rcases readTerminal_cases h with ⟨-, -, rfl⟩ | ⟨lines, steps, ⟨-, -, hplace⟩ |
    ⟨kind, named, size, -, -, -, hplace⟩⟩
  · exact .refl _
  · rw [hplace]
    exact hextras _ _
  · rw [hplace]
    exact (hextras _ _).trans (.advance _ _)

/-- The comments before a token are named, and they have no parts and no role. -/
theorem extras_comment (lines : Bool) (steps : Nat) (p : Place) :
    ∀ x ∈ (extras lines steps p).1,
      x.isComment = true ∧ x.named = true ∧ x.children = [] ∧ x.role = "" := by
  -- induction on the steps of `extras`: what it collects are comments, and comments are leaves
  induction steps generalizing p with
  | zero => exact fun x hx => by cases hx
  | succ steps ih =>
    rw [extras]
    split
    · exact fun x hx => by cases hx
    · split
      · exact ih _
      · dsimp only
        split
        · exact fun x hx => by cases hx
        · intro x hx
          rcases List.mem_cons.mp hx with rfl | hx
          · exact ⟨rfl, rfl, rfl, rfl⟩
          · exact ih _ x hx

/-- A terminal is read as comments, and perhaps a token of one of its sorts. -/
theorem readTerminal_sorted {bound : Bool} {t : Terminal} (h : readTerminal bound t s = .ok (xs, s')) :
    ∀ x ∈ xs, x.children = [] ∧ x.role = "" ∧
      (x.isComment = true ∧ x.named = true ∨ (x.kind, x.named) ∈ t.form.sorts) := by
  rcases readTerminal_cases h with ⟨-, rfl, -⟩ | ⟨lines, steps, ⟨-, rfl, -⟩ |
    ⟨kind, named, size, -, hscan, rfl, -⟩⟩
  · exact fun x hx => by cases hx
  · intro x hx
    obtain ⟨hcomment, hnamed, hchildren, hrole⟩ := extras_comment _ _ _ x hx
    exact ⟨hchildren, hrole, .inl ⟨hcomment, hnamed⟩⟩
  · intro x hx
    rcases List.mem_append.mp hx with hx | hx
    · obtain ⟨hcomment, hnamed, hchildren, hrole⟩ := extras_comment _ _ _ x hx
      exact ⟨hchildren, hrole, .inl ⟨hcomment, hnamed⟩⟩
    · rw [List.mem_singleton.mp hx]
      exact ⟨rfl, rfl, .inr (Form.scan_sorts hscan)⟩

/-! ### What the grammar speaks of -/

/-- The kinds of the declarations that may be groups. -/
def groupKinds : List String := ["const_declaration", "var_declaration", "type_declaration"]

/-- A group of members in parentheses. -/
inductive GroupRule : Phrase → Prop where
  | const : GroupRule (.seq (word "const") (.any [specGroup (the .constSpec), the .constSpec]))
  | var : GroupRule (.seq (word "var")
      (.any [.node "var_spec_list" (specGroup (the .varSpec)), the .varSpec]))
  | type : GroupRule (.seq (word "type") (.any [specGroup (the .typeSpec), the .typeSpec]))

/-- Whether the grammar may speak of a terminal: its texts end with bytes that are no white space, and it is
    code but no declaration. -/
def Terminal.plain (t : Terminal) : Bool :=
  t.form.inked && t.form.sorts.all fun x => isCodeKind x.1 && !groupKinds.contains x.1

/-- What the grammar speaks of: plain terminals, and constructs of code.  Declarations are written in one
    way each. -/
def admitted : Admitted Terminal Production Bool where
  terminal t := t.plain = true
  construct kind a := isCodeKind kind = true ∧ (groupKinds.contains kind = true → GroupRule a)

/-! ### Where terminals lie -/

/-- What ends with a byte that is no white space, or with a line feed, shows there. -/
theorem Ended.shows {size : Nat} (h : Ended p.rest size) (hsize : size ≠ 0) (hp : p.Within code) :
    code.Shows p.offset (p.advance size).offset := by
  obtain ⟨x, hx, hend⟩ := h
  have hlt : size - 1 < p.rest.length := (List.getElem?_eq_some_iff.mp hx).1
  rw [Place.offset_advance, Nat.min_eq_left (by omega)]
  rw [hp.getElem?_rest, ← Nat.add_sub_assoc (by omega)] at hx
  rcases hend with hink | hfeed
  · exact Bytes.shows_of_last (by omega) hx hink
  · exact ⟨p.offset + size - 1, x, by omega, by omega, hx, .inr ⟨hfeed, by omega⟩⟩

/-- A comment shows where it ends. -/
theorem comment_shows (h : commentLength p.rest ≠ 0) (hp : p.Within code) :
    code.Shows p.offset (p.advance (commentLength p.rest)).offset := by
  obtain ⟨hle, hfirst, ⟨hline, -⟩ | hlast⟩ := commentLength_cases h
  · -- its first byte is on the line where it ends
    rw [Place.offset_advance, Nat.min_eq_left hle]
    refine ⟨p.offset, 0x2f, Nat.le_refl _, by omega, ?_, .inl ⟨by decide, ?_⟩⟩
    · rw [← hfirst, hp.getElem?_rest, Nat.add_zero]
    · rw [Bytes.rowAt_eq_iff code (Nat.le_add_right _ _), ← hp.take_rest]
      exact hline
  · exact Ended.shows ⟨_, hlast, .inl (by decide)⟩ h hp

/-- White space is a gap. -/
theorem gap_advance {b : UInt8} {rest : Bytes} (hrest : p.rest = b :: rest) (hb : Bytes.isBlank b = true)
    (hp : p.Within code) : Gap code p.offset (p.advance 1).offset := by
  rw [Place.offset_advance, hrest, List.length_cons, Nat.min_eq_left (by omega)]
  refine ⟨Nat.le_add_right _ _, .inr ?_⟩
  rw [Bytes.slice_nat, ← hp.take_rest, hrest]
  simp [Bytes.blank, hb]

/-- The comments before a token lie one after another. -/
theorem extras_placed (lines : Bool) (steps : Nat) (hp : p.Within code) :
    Placed code p.offset (extras lines steps p).1 (extras lines steps p).2.offset := by
  -- induction on the steps: a blank lengthens the gap before the next comment, a comment ends it
  induction steps generalizing p with
  | zero => exact .nil (.refl _ _)
  | succ steps ih =>
    rw [extras]
    split
    · exact .nil (.refl _ _)
    · rename_i b rest hrest
      split
      · rename_i hblank
        exact (ih (hp.advance 1)).from_gap (gap_advance hrest (Bool.and_eq_true_iff.mp hblank).1 hp)
      · dsimp only
        split
        · exact .nil (.refl _ _)
        · rename_i hsize
          -- a comment ends where it shows, so the row of its last byte is the row it ends on
          have hshows := comment_shows (by simpa using hsize) hp
          exact (hp.placed_leaf (by decide) hshows).append (ih (hp.advance _))

/-- Nothing but a byte order mark at the beginning of a source is skipped. -/
theorem gap_mark (p : Place) : Gap code p.offset (p.advance (markLength p)).offset := by
  unfold markLength
  split
  · rename_i h
    exact ⟨by rw [Place.offset_advance]; omega, .inl (beq_iff_eq.mp (Bool.and_eq_true_iff.mp h).1)⟩
  · exact .refl _ _

/-- **A terminal and the comments before it lie one after another.** -/
theorem readTerminal_placed {bound : Bool} {t : Terminal} (h : readTerminal bound t s = .ok (xs, s'))
    (ht : t.plain = true) (hs : s.place.Within code) :
    Placed code s.place.offset xs s'.place.offset ∧ s'.place.Within code := by
  refine ⟨?_, hs.leads (readTerminal_leads h)⟩
  have hstart := hs.advance (markLength s.place)
  obtain ⟨hinked, hsorts⟩ := Bool.and_eq_true_iff.mp ht
  rcases readTerminal_cases h with ⟨-, rfl, rfl⟩ | ⟨lines, steps, ⟨-, rfl, hplace⟩ |
    ⟨kind, named, size, hsize, hscan, rfl, hplace⟩⟩
  · exact .nil (.refl _ _)
  · rw [hplace]
    exact (extras_placed _ _ hstart).from_gap (gap_mark _)
  · -- the comments, and the token behind them
    rw [hplace]
    have hfound := hstart.leads (extras_leads lines steps _)
    have hkind : isCodeKind kind = true :=
      (Bool.and_eq_true_iff.mp (List.all_eq_true.mp hsorts _ (Form.scan_sorts hscan))).1
    have hshows := ((Form.scan_found hscan hinked hsize).ended hsize).shows hsize hfound
    refine ((extras_placed _ _ hstart).from_gap (gap_mark _)).append (hfound.placed_leaf ?_ hshows)
    rintro rfl
    cases hkind

/-! ### The grammar -/

/-- A rule without declarations. -/
theorem covers_of_plain {a : Phrase} (hterminals : a.terminals.all Terminal.plain = true)
    (hconstructs : (a.constructs.all fun c => isCodeKind c.1 && !groupKinds.contains c.1) = true) :
    admitted.Covers a where
  terminals := List.all_eq_true.mp hterminals
  constructs := by
    intro c hc
    have hkind := List.all_eq_true.mp hconstructs c hc
    rw [Bool.and_eq_true, Bool.not_eq_true'] at hkind
    refine ⟨hkind.1, fun hgroup => ?_⟩
    rw [hkind.2] at hgroup
    cases hgroup

/-- A declaration. -/
theorem covers_of_group {kind : String} {a : Phrase} (hkind : isCodeKind kind = true) (ha : GroupRule a)
    (hplain : admitted.Covers a) : admitted.Covers (.node kind a) where
  terminals := hplain.terminals
  constructs := by
    intro c hc
    rcases List.mem_cons.mp hc with rfl | hc
    · exact ⟨hkind, fun _ => ha⟩
    · exact hplain.constructs c hc

/-- **The grammar speaks only of what is admitted.** -/
theorem admitted_covers (p : Production) : admitted.Covers (rule p) := by
  cases p with
  | declaration =>
    refine Admitted.Covers.alt (covers_of_group rfl .const (covers_of_plain ?_ ?_))
      (Admitted.Covers.alt (covers_of_group rfl .var (covers_of_plain ?_ ?_))
        (covers_of_group rfl .type (covers_of_plain ?_ ?_)))
    all_goals decide +kernel
  | expression header => cases header <;> exact covers_of_plain (by decide +kernel) (by decide +kernel)
  | operand header => cases header <;> exact covers_of_plain (by decide +kernel) (by decide +kernel)
  | _ => exact covers_of_plain (by decide +kernel) (by decide +kernel)

/-! ### Sources -/

/-- A source that can be parsed is read from its beginning on, and the root covers all that was read. -/
theorem yields_of_parse {root : Node} (h : parse code = .ok root) : ∃ s : State,
    table.Yields true (rule .sourceFile) { place := .origin code } root.children s ∧
      root.kind = "source_file" ∧ root.start = 0 ∧ root.stop = s.place.offset := by
  unfold parse at h
  dsimp only at h
  split at h
  case h_1 nodes s hread =>
    cases h
    exact ⟨s, Table.yields_of_read (congrArg Outcome.parsed? hread), rfl, rfl, rfl⟩
  case h_2 => cases h

/-- **What a parsed source is made of**: its nodes lie one after another, and each of them comes from the
    grammar. -/
theorem placed_of_parse {root : Node} (h : parse code = .ok root) :
    root.kind = "source_file" ∧ Placed code root.start root.children root.stop ∧
      root.stop ≤ code.length ∧
      table.AllOrigin (fun s => s.place.Within code) admitted root.children := by
  obtain ⟨s, hyields, hkind, hfirst, hlast⟩ := yields_of_parse h
  have hstart := Place.Within.origin code
  -- the reader has not left the source
  have hplaced : Placed code 0 root.children s.place.offset ∧ s.place.Within code :=
    hyields.placed admitted_covers (fun kind a h => by rintro rfl; cases h.1) readTerminal_placed
      (admitted_covers _) hstart
  rw [hfirst, hlast]
  refine ⟨hkind, hplaced.1, hplaced.2.bounded, hyields.origin admitted_covers
    (fun h x hx => (readTerminal_sorted h x hx).1) ?_ (admitted_covers _) hstart⟩
  exact fun h hs => hs.leads (readTerminal_leads h)

/-- The node is no mark, and what may stand anywhere is a comment. -/
structure Plain (n : Node) : Prop where
  mark : isMark n = false
  comment : isExtra n = true → n.isComment = true ∧ n.named = true

/-- The parts of a parsed source are plain. -/
theorem plain_of_parse {root x n : Node} (h : parse code = .ok root) (hx : x ∈ root.children)
    (hn : n ∈ x.preorder) : Plain n := by
  obtain ⟨-, hplaced, -, horigin⟩ := placed_of_parse h
  refine ⟨(hplaced.fine x hx n hn).mark, fun hextra => ?_⟩
  obtain ⟨role, n', hfrom, rfl⟩ := horigin x hx n hn
  rw [isExtra_withRole] at hextra
  have hsame : (n'.withRole role).isComment = n'.isComment ∧ (n'.withRole role).named = n'.named := by
    cases n'
    exact ⟨rfl, rfl⟩
  rw [hsame.1, hsame.2]
  rcases hfrom with ⟨m, t, s, ys, s', hplain, hread, hmem⟩ | ⟨kind, _, _, _, _, _, hcode, _, _, hmade⟩
  · rcases (readTerminal_sorted hread n' hmem).2.2 with hcomment | hsort
    · exact hcomment
    · -- a token of code is no comment
      have hall := List.all_eq_true.mp (Bool.and_eq_true_iff.mp hplain).2 _ hsort
      rw [(isExtra_of_isCodeKind (Bool.and_eq_true_iff.mp hall).1).1] at hextra
      cases hextra
  · rw [(isExtra_of_isCodeKind (hmade.kind_eq ▸ hcode.1)).1] at hextra
    cases hextra

/-- The declarations of a parsed source that may be groups are written by one of their rules. -/
theorem groupRule_of_parse {root x n : Node} (h : parse code = .ok root) (hx : x ∈ root.children)
    (hn : n ∈ x.preorder) (hkind : groupKinds.contains n.kind = true) : ∃ a m s ys s', GroupRule a ∧
      table.Yields m a s ys s' ∧ n.children = (ys.dropWhile isExtra).filter (!isMark ·) := by
  obtain ⟨-, -, -, horigin⟩ := placed_of_parse h
  obtain ⟨role, n', hfrom, rfl⟩ := horigin x hx n hn
  have hsame : (n'.withRole role).kind = n'.kind := by
    cases n'
    rfl
  rw [hsame] at hkind
  rw [children_withRole]
  rcases hfrom with ⟨m, t, s, ys, s', hplain, hread, hmem⟩ |
    ⟨kind, a, m, s, ys, s', hconstruct, -, hyields, hmade⟩
  · -- no token and no comment is a declaration
    rcases (readTerminal_sorted hread n' hmem).2.2 with hcomment | hsort
    · rw [beq_iff_eq.mp hcomment.1] at hkind
      cases hkind
    · have hall := List.all_eq_true.mp (Bool.and_eq_true_iff.mp hplain).2 _ hsort
      rw [Bool.and_eq_true, hkind] at hall
      cases hall.2
  · rw [hmade.kind_eq] at hkind
    exact ⟨a, m, s, ys, s', hconstruct.2 hkind, hyields, hmade.children_eq⟩

/-- **The tree of a parsed source is regular.** -/
theorem regular_of_parse {t : SourceTree} (h : parseTree code = .ok t) : t.Regular := by
  unfold parseTree at h
  split at h
  · rename_i root hparse
    cases h
    obtain ⟨-, hplaced, hbounded, -⟩ := placed_of_parse hparse
    exact regular_of_placed hplaced hbounded
  · cases h

end Docsmith.Go
