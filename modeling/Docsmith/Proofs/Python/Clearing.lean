import Docsmith.Proofs.Patch.Declared
import Docsmith.Proofs.Python.Apart
import Docsmith.Proofs.Python.Dark

namespace Docsmith

/-!
# What is left of a body without its documentation

When the string literal at the head of a body is cleared, the next construct takes its place, or the word `pass` does
if the literal was the only statement or shares its line.  A line that is joined to the next one counts as a
statement there, so that a body of a literal and such lines is left without any.

* `Python.Documents`: a definition whose body begins with a string literal.
* `Bytes.decode_slice`: a part of a text that cuts no character is a text.
* `Python.literalSlot_total`: such a definition of a source that is text has a slot.
* `Python.Cleared`: what becomes of the body when the slot is cleared.
* `Python.parseTree_headed`, `Python.cleared_body_stands`: all of this for the trees of sources and those like them.
* `Python.joined_line_is_no_statement`: a body that is left without a statement.
-/

/-! ### Parts of a text -/

/-- **A part of a text is a text** if it cuts no character. -/
theorem Bytes.decode_slice {code : Bytes} {text : String} {a b : Nat} (hcode : Text.decode code = .ok text)
    (ha : code.Whole a) (hb : code.Whole b) (hab : a ≤ b) : ∃ s, Text.decode (code.slice a b) = .ok s := by
  have hall : Lettering.chars.reads code text.toList := Bytes.decode_eq_ok.mp hcode
  obtain ⟨-, tail, -, -, htail⟩ := Lettering.chars.split hall ha (Nat.zero_le a) hall
  obtain ⟨middle, -, -, hmiddle, -⟩ := Lettering.chars.split hall hb hab htail
  refine ⟨String.ofList middle, Bytes.decode_eq_ok.mpr ?_⟩
  rw [String.toList_ofList]
  exact hmiddle

/-- What never fails returns. -/
theorem Fails.exists_ok {ε α : Type} {x : Except ε α} (h : Fails x fun _ => False) : ∃ a, x = .ok a := by
  cases x with
  | error e => exact (h e rfl).elim
  | ok a => exact ⟨a, rfl⟩

theorem SourceTree.textBetween_total {code : Bytes} {a b : Int} {s : String}
    (h : Text.decode (code.slice a b) = .ok s) : Fails (SourceTree.textBetween code a b) fun _ => False := by
  rw [SourceTree.textBetween, h]
  exact .pure s

namespace Python

open SourceTree Text

variable {t : SourceTree} {n colon block first next : Node} {others : List Node} {slot : DocSlot} {clear : Bytes}

/-! ### Definitions with a literal -/

/-- A definition of the tree whose body begins with a string literal, with the colon before the body and the
    statements behind the literal. -/
structure Documents (t : SourceTree) (n colon block first : Node) (others : List Node) : Prop where
  mem : n ∈ t.root.preorder
  definition : isDefinition n = true
  colon : (n.children.filter (·.kind == ":")).getLast? = some colon
  body : n.child? "body" = some block
  statements : statements block = first :: others
  literal : isDocstring first = true

/-- The body is a node of the tree, and so are its parts. -/
theorem Documents.block_mem (h : Documents t n colon block first others) : block ∈ t.root.preorder :=
  preorder_child h.mem (child?_mem h.body)

theorem Documents.part_mem (h : Documents t n colon block first others) {m : Node} (hm : m ∈ first :: others) :
    m ∈ t.root.preorder :=
  preorder_child h.block_mem (mem_of_mem_statements (h.statements ▸ hm))

/-- The slot of the definition is that of the literal. -/
theorem Documents.docstringSlot_eq (h : Documents t n colon block first others) : ∃ indent,
    docstringSlot t n = literalSlot t indent (first.row == colon.lastRow) block first := by
  unfold docstringSlot
  rw [h.colon, h.body]
  simp only [Option.map_some, Option.getD_some, h.statements, h.literal, if_true]
  exact ⟨_, rfl⟩

/-- The constructs of the body in order: comments, the literal, and what follows it. -/
theorem Documents.split (h : Documents t n colon block first others) (hfirm : t.Firm) : ∃ comments rest,
    block.namedChildren = comments ++ first :: rest ∧ afterFirst? block first = rest.head? ∧
      (∀ m ∈ others, m ∈ rest) ∧ ∀ m ∈ rest, m ∈ t.root.preorder ∧ first.stop ≤ m.start ∧
        ∀ next ∈ rest.head?, next.start ≤ m.start := by
  -- the named children are comments, the literal and what is left, in the order of their starts
  obtain ⟨comments, rest, hsplit, hafter, hothers⟩ := statements_split h.statements
  have hordered : block.namedChildren.Pairwise fun a b => a.stop ≤ b.start :=
    (hfirm.ordered h.block_mem).filter _
  rw [hsplit] at hordered
  have hrest := (List.pairwise_append.mp hordered).2.1
  refine ⟨comments, rest, hsplit, hafter, hothers, fun m hm => ?_⟩
  have hpart (c : Node) (hc : c ∈ rest) : c ∈ t.root.preorder := by
    have hnamed : c ∈ block.namedChildren := by simp [hsplit, hc]
    exact preorder_child h.block_mem (List.mem_filter.mp hnamed).1
  refine ⟨hpart m hm, List.rel_of_pairwise_cons hrest hm, fun next hnext => ?_⟩
  cases rest with
  | nil => cases hnext
  | cons c rest =>
    cases hnext
    rcases List.mem_cons.mp hm with rfl | hm
    · exact Nat.le_refl _
    -- the next child has a size, so what comes after it starts later
    · have hsize := (hfirm.node (hpart next List.mem_cons_self)).1
      have hlater := List.rel_of_pairwise_cons (List.pairwise_cons.mp hrest).2 hm
      omega

/-- The pieces of text in the literal are nodes of the tree. -/
theorem Documents.content_mem (h : Documents t n colon block first others) {c : Node}
    (hc : c ∈ literalTexts first) : c ∈ t.root.preorder := by
  obtain ⟨hc, -⟩ := List.mem_filter.mp hc
  -- only one expression can be the literal, and its parts are what its text is read from
  cases hsole : soleExpression? first with
  | none => rw [hsole] at hc; cases hc
  | some e =>
    rw [hsole] at hc
    have he : e ∈ first.children := by
      unfold soleExpression? at hsole
      split at hsole
      · split at hsole
        · rename_i only hnamed
          cases hsole
          have hmem : e ∈ first.namedChildren := by rw [hnamed]; exact List.mem_cons_self
          exact (List.mem_filter.mp hmem).1
        · cases hsole
      · cases hsole
    have hfirst := h.part_mem List.mem_cons_self
    exact preorder_child (preorder_child hfirst he) (List.mem_filter.mp hc).1

/-! ### The slot -/

/-- **The slot of a literal is found** in a source that is text. -/
theorem literalSlot_total (hfirm : t.Firm) (h : Documents t n colon block first others) {text : String}
    (hcode : decode t.code = .ok text) (indent : String) (inline : Bool) :
    ∃ slot, literalSlot t indent inline block first = .ok slot := by
  apply Fails.exists_ok
  have htext {a b : Nat} (ha : t.code.Whole a) (hb : t.code.Whole b) (hab : a ≤ b) :=
    Bytes.decode_slice hcode ha hb hab
  have hempty : Fails (textBetween [] 0 ([] : Bytes).length) fun _ => False := textBetween_total (s := "") rfl
  unfold literalSlot
  refine Fails.bind (.mapM fun c hc => ?_) fun texts => ?_
  · have hmem := h.content_mem hc
    obtain ⟨s, hs⟩ := htext (hfirm.parts c hmem).ends.1 (hfirm.parts c hmem).ends.2 (hfirm.node hmem).1
    exact textBetween_total hs
  · obtain ⟨comments, rest, -, hafter, -, hbehind⟩ := h.split hfirm
    rw [hafter]
    cases hnext : rest.head? with
    | none => exact hempty.bind fun _ => .pure _
    | some next =>
      dsimp only
      split
      · -- what is between the literal and the next construct
        obtain ⟨hmem, hle, -⟩ := hbehind next (List.mem_of_mem_head? hnext)
        have hfirst := h.part_mem List.mem_cons_self
        obtain ⟨s, hs⟩ := htext (hfirm.parts first hfirst).ends.2 (hfirm.parts next hmem).ends.1 hle
        refine (textBetween_total (s := s) ?_).bind fun _ => .pure _
        rw [← hs]
        congr 1
        generalize t.code.slice first.stop next.start = follow
        show follow.slice (0 : Nat) follow.length = follow
        rw [Bytes.slice_nat, List.take_length, List.drop_zero]
      · exact hempty.bind fun _ => .pure _

/-! ### The body -/

/-- A line that is joined to the next one. -/
def isJoint (n : Node) : Bool := n.kind == "line_continuation"

/-- The code with what takes the place of the documentation in a slot. -/
def clearedCode (t : SourceTree) (slot : DocSlot) (clear : Bytes) : Bytes :=
  (t.edit slot.key slot.start slot.stop clear).render

/-- What a body becomes when the literal at its head is cleared.  A blank text clears it.  If nothing takes its place,
    statements follow, and the construct after the literal begins where the literal did; else the word `pass` does, and
    the code behind the literal is the same.  The statements behind the literal stay.  All of them are joined lines,
    with nothing before them, exactly if they were all that followed a literal on a line of its own. -/
structure Cleared (t : SourceTree) (colon block first : Node) (others : List Node) (slot : DocSlot) (clear : Bytes) :
    Prop where
  clear_eq : slot.clear = some clear
  blank : ∀ text, isBlankText text = true → renderDoc slot text = clear
  start_eq : slot.start = first.start
  moved : clear = [] → others ≠ [] ∧ ∃ comments next rest,
    block.namedChildren = comments ++ first :: next :: rest ∧
      clearedCode t slot clear = t.code.take first.start ++ t.code.drop next.start
  passed : clear ≠ [] →
    clearedCode t slot clear = t.code.take first.start ++ encode "pass" ++ t.code.drop first.stop
  kept : ∀ m ∈ others, slot.stop ≤ m.start ∧ t.Leaves slot.key slot.start slot.stop m.start m.stop
  bare_iff : (clear = [] ∧ ∀ m ∈ others, isJoint m = true) ↔ first.row ≠ colon.lastRow ∧ others ≠ [] ∧
    (∀ m ∈ others, isJoint m = true) ∧ ∃ next ∈ afterFirst? block first, first.lastRow < next.row

theorem pass_ne_nil (follow : Bytes) : encode "pass" ++ follow ≠ [] := by
  rw [encode, String.toList]
  exact List.append_ne_nil_of_left_ne_nil (by decide +kernel) follow

/-- The code with a word in the place of a literal, and what was between the literal and the end of the slot. -/
theorem clearedCode_eq (hclean : t.edits.entries = []) (slot : DocSlot) (clear : Bytes) :
    clearedCode t slot clear = t.code.take slot.start ++ clear ++ t.code.drop slot.stop :=
  render_edit hclean slot.key slot.start slot.stop clear

/-- **What becomes of a body whose literal is cleared.** -/
theorem Documents.cleared (h : Documents t n colon block first others) (hfirm : t.Firm)
    (hclean : t.edits.entries = []) :
    Returns (docstringSlot t n) fun slot => ∃ clear, Cleared t colon block first others slot clear := by
  obtain ⟨indent, hslot⟩ := h.docstringSlot_eq
  obtain ⟨comments, rest, hsplit, hafter, hothers, hbehind⟩ := h.split hfirm
  have hfirst := hfirm.node (h.part_mem List.mem_cons_self)
  have hcount : (Python.statements block).length > 1 ↔ others ≠ [] := by
    rw [h.statements, List.length_cons, ← List.length_pos_iff]
    omega
  rw [hslot]
  intro slot hreturn
  obtain ⟨hstyle, hstart, hlayout⟩ := literalSlot_spec t indent _ block first slot hreturn
  have hblank {clear : Bytes} (hclear : slot.clear = some clear) (text : String) (htext : isBlankText text = true) :
      renderDoc slot text = clear := by
    rw [renderDoc, hstyle, hclear]
    exact if_pos htext
  have hkept (hstop : ∀ m ∈ others, slot.stop ≤ m.start) : ∀ m ∈ others, slot.stop ≤ m.start ∧
      t.Leaves slot.key slot.start slot.stop m.start m.stop := by
    intro m hm
    refine ⟨hstop m hm, leaves_behind hclean (hstop m hm) ?_⟩
    omega
  rcases hlayout with ⟨next, hnext, ⟨hline, hrow⟩, hstop, hclear⟩ | ⟨hline, hstop, hclear⟩
  · -- the slot reaches up to a construct on a later line, of which the statements are no earlier
    have hline : first.row ≠ colon.lastRow := by simpa using hline
    have hhead := hafter ▸ hnext
    have hlater : ∀ m ∈ others, slot.stop ≤ m.start := by
      intro m hm
      rw [hstop]
      exact (hbehind m (hothers m hm)).2.2 next hhead
    by_cases hmore : others = []
    · -- the literal was the only statement
      rw [if_neg (by rw [hcount, not_not]; exact hmore)] at hclear
      refine ⟨_, hclear, hblank hclear, hstart, fun hnil => absurd hnil (pass_ne_nil _), fun _ => ?_, hkept hlater, ?_⟩
      · obtain ⟨-, hle, -⟩ := hbehind next (List.mem_of_mem_head? hhead)
        rw [clearedCode_eq hclean, hstart, hstop, Lettering.drop_eq t.code hle]
        simp only [List.append_assoc]
      · constructor
        · rintro ⟨hnil, -⟩
          exact absurd hnil (pass_ne_nil _)
        · rintro ⟨-, hsome, -⟩
          exact absurd hmore hsome
    · rw [if_pos (hcount.mpr hmore)] at hclear
      refine ⟨[], hclear, hblank hclear, hstart, fun _ => ⟨hmore, ?_⟩, fun hnil => absurd rfl hnil, hkept hlater, ?_⟩
      · obtain ⟨rest, rfl⟩ : ∃ tail, rest = next :: tail := List.head?_eq_some_iff.mp hhead
        refine ⟨comments, next, rest, hsplit, ?_⟩
        rw [clearedCode_eq hclean, hstart, hstop, List.append_nil]
      · exact ⟨fun hjoints => ⟨hline, hmore, hjoints.2, next, hnext, hrow⟩, fun hjoints => ⟨rfl, hjoints.2.2.1⟩⟩
  · -- the slot is the literal, and always filled
    have hlater : ∀ m ∈ others, slot.stop ≤ m.start := by
      intro m hm
      rw [hstop]
      exact (hbehind m (hothers m hm)).2.1
    have hpass : encode "pass" ≠ [] := by simpa using pass_ne_nil []
    refine ⟨_, hclear, hblank hclear, hstart, fun hnil => absurd hnil hpass, fun _ => ?_, hkept hlater, ?_⟩
    · rw [clearedCode_eq hclean, hstart, hstop]
    · constructor
      · rintro ⟨hnil, -⟩
        exact absurd hnil hpass
      · rintro ⟨hrow, -, -, next, hnext, hlast⟩
        refine absurd ⟨?_, hlast⟩ (hline next hnext)
        simpa using hrow

/-- In the tree of a source every definition has a colon before its body. -/
theorem parseTree_headed (code : Bytes) : Returns (parseTree code) fun t => t.Firm ∧ t.edits.entries = [] ∧
    ∀ n ∈ t.root.preorder, isDefinition n = true → ∃ colon block,
      (n.children.filter (·.kind == ":")).getLast? = some colon ∧ n.child? "body" = some block := by
  intro t ht
  have horderly := parseTree_orderly code t ht
  have hparse := parse_of_fresh (parseTree_reads.fresh code t ht)
  refine ⟨horderly.toFirm, by simpa [EditSet.dirty] using horderly.clean, fun n hn hdefinition => ?_⟩
  obtain ⟨before, between, colon, block, hheaded⟩ := headed_of_parse hparse hn hdefinition
  exact ⟨colon, block, hheaded.lastColon, hheaded.body?⟩

/-- **A cleared body stands**, but for joined lines.  In a firm tree that no edit waits for, as that of any source is
    (`parseTree_headed`), a definition whose body begins with a string literal has a slot, if the source is text.  What
    becomes of the body when this is cleared is as it should be: the next construct or the word `pass` takes the place
    of the literal, and the statements behind it stay. -/
theorem cleared_body_stands (hfirm : t.Firm) (hclean : t.edits.entries = [])
    (h : Documents t n colon block first others) :
    (∀ text, decode t.code = .ok text → ∃ slot, docstringSlot t n = .ok slot) ∧
      ∀ slot, docstringSlot t n = .ok slot → ∃ clear, Cleared t colon block first others slot clear := by
  refine ⟨fun text htext => ?_, h.cleared hfirm hclean⟩
  obtain ⟨indent, hslot⟩ := h.docstringSlot_eq
  rw [hslot]
  exact literalSlot_total hfirm h htext indent _

/-- The first definition of a source whose body begins with a literal that nothing takes the place of: how many
    statements follow, how many of them are joined lines, and the code without the literal. -/
def firstEmptied? (t : SourceTree) : Option (Nat × Nat × Bytes) :=
  t.root.preorder.findSome? fun n =>
    match (n.children.filter (·.kind == ":")).getLast?, n.child? "body", docstringSlot t n with
    | some _, some block, .ok slot =>
      match statements block with
      | first :: others =>
        if isDefinition n && isDocstring first && slot.clear == some [] then
          some (others.length, (others.filter isJoint).length, clearedCode t slot [])
        else none
      | [] => none
    | _, _, _ => none

theorem exists_of_firstEmptied? {count joints : Nat} {code : Bytes} (h : firstEmptied? t = some (count, joints, code)) :
    ∃ n colon block first others slot, Documents t n colon block first others ∧ docstringSlot t n = .ok slot ∧
      slot.clear = some [] ∧ others.length = count ∧ (others.filter isJoint).length = joints ∧
      clearedCode t slot [] = code := by
  obtain ⟨n, hn, hfound⟩ := List.exists_of_findSome?_eq_some h
  split at hfound
  · rename_i colon block slot hcolon hbody hslot
    split at hfound
    · rename_i first others hstatements
      split at hfound
      · rename_i htest
        simp only [Bool.and_eq_true, beq_iff_eq] at htest
        cases hfound
        exact ⟨n, colon, block, first, others, slot, ⟨hn, htest.1.1, hcolon, hbody, hstatements, htest.1.2⟩, hslot,
          htest.2, rfl, rfl, rfl⟩
      · cases hfound
    · cases hfound
  · cases hfound

/-- A literal between two comments, which a semicolon follows: the second comment takes its place. -/
theorem cleared_body_stands_of_a_function :
    ∃ t n colon block first others slot,
      parseTree (encode "def f():\n    # note\n    'doc';\n    # more\n    return 1\n") = .ok t ∧
      Documents t n colon block first others ∧ docstringSlot t n = .ok slot ∧
      Cleared t colon block first others slot [] ∧
      clearedCode t slot [] = encode "def f():\n    # note\n    # more\n    return 1\n" := by
  have hall : (parseTree (encode "def f():\n    # note\n    'doc';\n    # more\n    return 1\n")).toOption.any
      (fun t => firstEmptied? t
        == some (1, 0, encode "def f():\n    # note\n    # more\n    return 1\n")) = true := by
    decide +kernel
  obtain ⟨t, ht, hfound⟩ := exists_of_any hall
  obtain ⟨n, colon, block, first, others, slot, h, hslot, hempty, -, -, hcode⟩ :=
    exists_of_firstEmptied? (eq_of_beq hfound)
  obtain ⟨hfirm, hclean, -⟩ := parseTree_headed _ t ht
  obtain ⟨clear, hcleared⟩ := (cleared_body_stands hfirm hclean h).2 slot hslot
  obtain rfl : clear = [] := by
    have hclear := hcleared.clear_eq
    rw [hempty] at hclear
    exact (Option.some.inj hclear).symm
  exact ⟨t, n, colon, block, first, others, slot, ht, h, hslot, hcleared, hcode⟩

/-- **A joined line is no statement**, but it counts as one.  The literal of a function is followed by nothing else
    but a comment, and nothing takes its place: in what is left of the source the function has a body without any
    statement. -/
theorem joined_line_is_no_statement :
    let left := encode "def f():\n    \\\n    # comment\nx = 1\n"
    (∃ t n colon block first others slot,
      parseTree (encode "def f():\n    \"doc\"\n    \\\n    # comment\nx = 1\n") = .ok t ∧ WellFormed t ∧
      Documents t n colon block first others ∧ docstringSlot t n = .ok slot ∧ slot.clear = some [] ∧
      (∀ m ∈ others, isJoint m = true) ∧ clearedCode t slot [] = left) ∧
    ∃ t n block, parseTree left = .ok t ∧ n ∈ t.root.preorder ∧ isDefinition n = true ∧
      n.child? "body" = some block ∧ statements block = [] := by
  intro left
  have hall : (parseTree (encode "def f():\n    \"doc\"\n    \\\n    # comment\nx = 1\n")).toOption.any
      (fun t => decide (WellFormed t) && firstEmptied? t == some (1, 1, left)) = true := by
    decide +kernel
  have hleft : (parseTree left).toOption.any (fun t => t.root.preorder.any fun n => isDefinition n &&
      (n.child? "body").any fun block => (statements block).isEmpty) = true := by
    decide +kernel
  constructor
  · obtain ⟨t, ht, htest⟩ := exists_of_any hall
    obtain ⟨hwell, hfound⟩ := Bool.and_eq_true_iff.mp htest
    obtain ⟨n, colon, block, first, others, slot, h, hslot, hempty, hcount, hjoints, hcode⟩ :=
      exists_of_firstEmptied? (eq_of_beq hfound)
    refine ⟨t, n, colon, block, first, others, slot, ht, of_decide_eq_true hwell, h, hslot, hempty, ?_, hcode⟩
    -- as many statements as there are joined lines
    exact List.length_filter_eq_length_iff.mp (hjoints.trans hcount.symm)
  · obtain ⟨t, ht, htest⟩ := exists_of_any hleft
    obtain ⟨n, hn, htest⟩ := List.any_eq_true.mp htest
    obtain ⟨hdefinition, hbody⟩ := Bool.and_eq_true_iff.mp htest
    obtain ⟨block, hblock, hempty⟩ := (Option.any_eq_true _ _).mp hbody
    exact ⟨t, n, block, ht, hn, hdefinition, hblock, List.isEmpty_iff.mp hempty⟩

end Python

end Docsmith
