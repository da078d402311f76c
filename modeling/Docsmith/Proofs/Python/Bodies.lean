import Docsmith.Proofs.Python.Layout
import Docsmith.Python.Declarations

namespace Docsmith.Python

open Grammar

/-!
# The bodies of definitions

The body of a definition stands after its colon, and on the same line only if nothing but white space is
between the two.  Its statements have at most one semicolon between them.

* `semicolons`, `Apart`: no two semicolons come in a row.
* `Suite`: the shape of a body, and `yields_suite`: what follows a colon has it.
* `Headed`: the shape of a definition, and `headed_of_parse`: those of a parsed source have it.
-/

variable {sort : String → Bool → String → Bool} {s s' : State} {xs ys comments : List Node}
  {first : Node}

/-! ### The sorts of nodes -/

/-- The sorts of the nodes of a terminal are admitted. -/
def leafSort (t : Terminal) (sort : String → Bool → String → Bool) : Bool :=
  t.form.sorts.all fun (kind, named) => sort kind named ""

/-- All nodes that a rule yields, comments and marks apart, are of the sorts that a check admits. -/
theorem ofSort_of_yields {mode : Mode} {a : Phrase} (h : table.Yields mode a s xs s') {depth : Nat}
    (hsort : table.emits leafSort depth sort a = true) : ∀ x ∈ xs, OfSort sort x := by
  refine h.of_emits ?_ hsort
  intro m t s xs s' sort hread hleaf x hx
  have hsorted := (readTerminal_sorted hread).2 x hx
  rcases hsorted.sort with haside | hmark | hmem
  · exact .inl haside.extra
  · exact .inr (.inl hmark)
  · refine .inr (.inr ?_)
    rw [hsorted.role_eq]
    exact List.all_eq_true.mp hleaf _ hmem

/-! ### Semicolons -/

/-- Whether some nodes end with a semicolon, unless two of them come in a row.  The first argument says
    that one came before. -/
def semicolons : Bool → List Node → Option Bool
  | after, [] => some after
  | after, n :: rest =>
    if isMark n then semicolons after rest
    else if n.kind == ";" then if after then none else semicolons true rest
    else semicolons false rest

theorem semicolons_append (after : Bool) (xs ys : List Node) :
    semicolons after (xs ++ ys) = (semicolons after xs).bind (semicolons · ys) := by
  induction xs generalizing after with
  | nil => rfl
  | cons n rest ih =>
    simp only [List.cons_append, semicolons, ih]
    split
    · rfl
    · split
      · split <;> rfl
      · rfl

/-- Marks do not matter. -/
theorem semicolons_filter (after : Bool) (xs : List Node) :
    semicolons after (xs.filter (!isMark ·)) = semicolons after xs := by
  induction xs generalizing after with
  | nil => rfl
  | cons n rest ih =>
    by_cases hmark : isMark n = true
    · rw [List.filter_cons_of_neg (by simp [hmark]), ih, semicolons, if_pos hmark]
    · rw [List.filter_cons_of_pos (by simp [hmark])]
      simp only [semicolons, ih]

/-- Nodes without semicolons keep or end what came before. -/
theorem semicolons_of_none (after : Bool) (h : ∀ n ∈ xs, n.kind ≠ ";") :
    semicolons after xs = some (after && xs.all isMark) := by
  induction xs generalizing after with
  | nil => simp [semicolons]
  | cons n rest ih =>
    have hn := h n List.mem_cons_self
    have hrest := fun after => ih after fun x hx => h x (List.mem_cons_of_mem n hx)
    by_cases hmark : isMark n = true <;> simp [semicolons, hmark, hn, hrest]

/-- No two semicolons come in a row, whatever came before. -/
def Apart (xs : List Node) : Prop := ∀ after, (semicolons after xs).isSome = true

theorem Apart.append (h : Apart xs) (h' : Apart ys) : Apart (xs ++ ys) := by
  intro after
  obtain ⟨b, hb⟩ := Option.isSome_iff_exists.mp (h after)
  rw [semicolons_append, hb]
  exact h' b

theorem Apart.flatten {pieces : List (List Node)} (h : ∀ ys ∈ pieces, Apart ys) :
    Apart pieces.flatten := by
  induction pieces with
  | nil => exact fun _ => rfl
  | cons ys rest ih =>
    exact (h ys List.mem_cons_self).append (ih fun zs hzs => h zs (List.mem_cons_of_mem ys hzs))

theorem Apart.of_none (h : ∀ n ∈ xs, n.kind ≠ ";") : Apart xs := by
  intro after
  rw [semicolons_of_none after h]
  rfl

/-- The kind is not that of a semicolon. -/
def notSemicolon (kind : String) (_ : Bool) (_ : String) : Bool := kind != ";"

/-- No node that a rule without semicolons yields is one. -/
theorem kind_ne_of_yields {mode : Mode} {a : Phrase} (h : table.Yields mode a s xs s') {depth : Nat}
    (hsort : table.emits leafSort depth notSemicolon a = true) : ∀ n ∈ xs, n.kind ≠ ";" := by
  intro n hn
  rcases ofSort_of_yields h hsort n hn with hextra | hmark | hkind
  · simp only [isExtra, Node.isComment, Bool.or_eq_true, beq_iff_eq] at hextra
    rcases hextra with hextra | hextra <;> rw [hextra] <;> decide
  · rw [isMark, beq_iff_eq] at hmark
    rw [hmark]
    decide
  · simpa [notSemicolon] using hkind

theorem apart_mark {mode : Mode} {t : Terminal} (h : table.Yields mode (.term t) s xs s')
    (hcode : t.form.isCode = false) : Apart xs := by
  refine .of_none (kind_ne_of_yields h (?_ : table.emits leafSort 1 notSemicolon (.term t) = true))
  obtain ⟨form, continues⟩ := t
  cases form <;> first | rfl | cases hcode

theorem emits_simpleStatement :
    table.emits leafSort 40 notSemicolon (the .simpleStatement) = true := by decide +kernel

theorem leads_simpleStatement :
    leads 80 true (fun _ named _ => named) (the .simpleStatement) = true := by decide +kernel

/-- A statement ends what came before. -/
theorem semicolons_simpleStatement {mode : Mode}
    (h : table.Yields mode (the .simpleStatement) s xs s') (hs : s.place.Sane) (after : Bool) :
    semicolons after xs = some false := by
  obtain ⟨comments, first, hopen⟩ | ⟨hmust, -⟩ := begins_of_yields h hs leads_simpleStatement
  · obtain ⟨rest, hxs⟩ := hopen.split
    have hcode : xs.all isMark = false := by
      rw [List.all_eq_false]
      exact ⟨first, by rw [hxs]; simp, by simp [hopen.code]⟩
    rw [semicolons_of_none after (kind_ne_of_yields h emits_simpleStatement), hcode, Bool.and_false]
  · cases hmust

/-- A semicolon comes after something else. -/
theorem semicolons_symbol {mode : Mode} (h : table.Yields mode (symOn [";"]) s xs s') :
    semicolons false xs = some true := by
  obtain ⟨kind, named, size, -, hscan, hxs, -⟩ :=
    readTerminal_code rfl rfl (readTerminal_of_yields h)
  have hkind : kind = ";" := by
    have := scan_sorts hscan
    simp only [Form.sorts, List.map_cons, List.map_nil, List.mem_singleton, Prod.mk.injEq] at this
    exact this.1
  have hextras : ∀ n ∈ (extrasAt s.place).1, n.kind ≠ ";" := by
    intro n hn hsame
    have := (extrasAt_aside _ n hn).extra
    simp [isExtra, Node.isComment, hsame] at this
  rw [hxs, semicolons_append, semicolons_of_none false hextras, hkind]
  rfl

/-- The statements of a line have one semicolon between them, and perhaps one at the end. -/
theorem apart_simpleStatements {mode : Mode}
    (h : table.Yields mode (the .simpleStatements) s xs s') (hs : s.place.Sane) : Apart xs := by
  cases h with
  | call h =>
  cases h with
  | @seq _ _ _ _ ys s₁ zs _ hlist hend =>
  cases hlist with
  | @seq _ _ _ _ as s₂ bs _ hfirst hmore =>
  have hsane := sane_of_yields hfirst hs
  obtain ⟨pieces, rfl, hpieces⟩ := hmore.pieces (fun s => s.place.Sane)
    (fun h hs => Place.Sane.leads hs (readTerminal_sorted h).1) hsane
  -- each further statement comes with a semicolon before it
  have hpieces' : semicolons false pieces.flatten = some false := by
    clear hmore hend
    induction pieces with
    | nil => rfl
    | cons ps rest ih =>
      obtain ⟨t, t', ht, hpiece⟩ := hpieces ps List.mem_cons_self
      cases hpiece with
      | @seq _ _ _ _ cs t₁ ds _ hsep hstatement =>
      cases hsep with
      | @seq _ _ _ _ es t₂ fs _ hsymbol hline =>
      obtain ⟨rfl, rfl⟩ := readTerminal_sameLine (readTerminal_of_yields hline)
      have hsane' := sane_of_yields hsymbol ht
      rw [List.flatten_cons, semicolons_append, semicolons_append, List.append_nil,
        semicolons_symbol hsymbol, Option.bind_some, semicolons_simpleStatement hstatement hsane']
      exact ih fun qs hqs => hpieces qs (List.mem_cons_of_mem _ hqs)
  intro after
  rw [semicolons_append, semicolons_append, semicolons_simpleStatement hfirst hs, Option.bind_some,
    hpieces', Option.bind_some]
  cases hend with
  | @seq _ _ _ _ cs t ds _ hlast hline =>
  have hnewline : Apart ds := apart_mark hline rfl
  cases hlast with
  | left hlast =>
    rw [semicolons_append, semicolons_symbol hlast]
    exact hnewline true
  | right hlast =>
    cases hlast with
    | empty => exact hnewline false

/-- A statement of a block, or a line of statements. -/
theorem apart_statement {mode : Mode} (h : table.Yields mode (the .statement) s xs s')
    (hs : s.place.Sane) : Apart xs := by
  cases h with
  | call h =>
  cases h with
  | @seq _ _ _ _ ys s₁ zs _ hbegin h =>
  refine (apart_mark hbegin rfl).append ?_
  obtain ⟨a, ha, h⟩ := h.of_any (by simp)
  have hcases : a = the .simpleStatements ∨ table.emits leafSort 20 notSemicolon a = true := by
    simp only [List.mem_cons, List.not_mem_nil, or_false] at ha
    rcases ha with rfl | rfl | rfl | rfl | rfl | rfl | rfl | rfl | rfl | rfl <;>
      first | exact .inl rfl | exact .inr (by decide +kernel)
  rcases hcases with rfl | hemits
  · exact apart_simpleStatements h (sane_of_yields hbegin hs)
  · exact .of_none (kind_ne_of_yields h hemits)

/-! ### Bodies -/

/-- The parts of a block are constructs, with semicolons between them. -/
def isPart (kind : String) (named : Bool) (_ : String) : Bool := named || kind == ";"

/-- The body after a colon on some row: comments and marks, and then a block.  If the block has a
    statement it begins with it, and nothing stands before one on the row of the colon. -/
structure Suite (row : Nat) (xs before : List Node) (block : Node) : Prop where
  split : xs = before ++ [block]
  extras : ∀ n ∈ before, isExtra n = true ∨ isMark n = true
  kind_eq : block.kind = "block"
  parts : ∀ n ∈ block.children, isMark n = false ∧ OfSort isPart n
  apart : (semicolons false block.children).isSome = true
  first : ∀ n ∈ (statements block).head?, block.children.head? = some n ∧ block.start = n.start ∧
    (n.row = row → before = [])

/-- The first statement of a block that begins with a named node is this node. -/
theorem head_statements {block first : Node} (hchildren : block.children.head? = some first)
    (hnamed : first.named = true) (hextra : isExtra first = false) :
    (statements block).head? = some first := by
  cases hcs : block.children with
  | nil => rw [hcs] at hchildren; cases hchildren
  | cons c rest =>
    rw [hcs] at hchildren
    cases hchildren
    have hcomment : first.isComment = false := by
      rw [isExtra, Bool.or_eq_false_iff] at hextra
      exact hextra.1
    simp [statements, Node.namedChildren, hcs, hnamed, hcomment]

/-- The statements of a block are parts of it. -/
theorem mem_of_mem_statements {block stmt : Node} (h : stmt ∈ statements block) : stmt ∈ block.children :=
  (List.mem_filter.mp (List.mem_filter.mp h).1).1

/-- A block without children has no statement. -/
theorem statements_eq_nil {block : Node} (h : block.children = []) : statements block = [] := by
  simp [statements, Node.namedChildren, h]

/-- The children of a construct that begins with a node of code begin with it. -/
theorem Opening.head_children {kind : String} {made : Node} (hopen : Opening sort s xs comments first)
    (hmade : Made kind xs made) :
    made.children.head? = some first ∧ made.start = first.start ∧ made.row = first.row := by
  obtain ⟨-, hhead⟩ := hopen.comments_eq
  refine ⟨?_, (hmade.start_eq first hhead).1, (hmade.start_eq first hhead).2⟩
  rw [hmade.children_eq]
  cases hbody : xs.dropWhile isExtra with
  | nil => rw [hbody] at hhead; cases hhead
  | cons c rest =>
    rw [hbody] at hhead
    cases hhead
    simp [hopen.code.2]

/-- Comments in front of a construct do not matter. -/
theorem Apart.made {kind : String} {made : Node} (h : Apart xs) (hmade : Made kind xs made) :
    (semicolons false made.children).isSome = true := by
  have hextras : ∀ n ∈ xs.takeWhile isExtra, n.kind ≠ ";" := by
    intro n hn hsame
    have hextra := List.all_eq_true.mp (List.all_takeWhile ..) n hn
    simp [isExtra, Node.isComment, hsame] at hextra
  have hall := h false
  rw [← List.takeWhile_append_dropWhile (p := isExtra) (l := xs), semicolons_append,
    semicolons_of_none false hextras] at hall
  rw [hmade.children_eq, semicolons_filter]
  exact hall

/-- Comments and marks, and then a block: one that begins with a statement, or one without any. -/
theorem suite_of_wrap (s : State) (row : Nat) (before : List Node)
    (hbefore : ∀ n ∈ before, isExtra n = true ∨ isMark n = true)
    (hparts : ∀ n ∈ xs, OfSort isPart n) (hapart : Apart xs)
    (hfirst : (∃ comments first, Opening (fun _ named _ => named) s xs comments first ∧
        (first.row = row → before ++ comments = [])) ∨
      ∃ q, xs.dropWhile isExtra = [markAt q]) :
    ∃ before' block, Suite row (before ++ wrap "block" xs) before' block := by
  -- a row of comments alone would leave nothing to wrap
  have hnonempty : xs.dropWhile isExtra ≠ [] := by
    intro hnone
    rcases hfirst with ⟨comments, first, hopen, -⟩ | ⟨q, hmark⟩
    · have hhead := hopen.comments_eq.2
      rw [hnone] at hhead
      cases hhead
    · rw [hnone] at hmark
      cases hmark
  -- what is wrapped begins with its first code; the comments before it stay outside the block
  rcases wrap_cases "block" xs with ⟨hnone, -⟩ | ⟨block, hmade, hwrap⟩
  · exact absurd hnone hnonempty
  · refine ⟨before ++ xs.takeWhile isExtra, block, ?_⟩
    constructor
    case split => rw [hwrap, List.append_assoc]
    case extras =>
      intro n hn
      rcases List.mem_append.mp hn with hn | hn
      · exact hbefore n hn
      · exact .inl (List.all_eq_true.mp (List.all_takeWhile ..) n hn)
    case kind_eq => exact hmade.kind_eq
    case parts =>
      intro n hn
      rw [hmade.children_eq] at hn
      obtain ⟨hmem, hmark⟩ := List.mem_filter.mp hn
      exact ⟨by simpa using hmark, hparts n ((List.dropWhile_sublist _).subset hmem)⟩
    case apart => exact hapart.made hmade
    case first =>
      intro n hn
      -- either the block opens with a statement, or the mark of its indentation is all there is
      rcases hfirst with ⟨comments, first, hopen, hrow⟩ | ⟨q, hmark⟩
      · obtain ⟨hhead, hstart, -⟩ := hopen.head_children hmade
        rw [head_statements hhead hopen.sort_eq hopen.code.1] at hn
        cases hn
        refine ⟨hhead, hstart, ?_⟩
        rw [hopen.comments_eq.1]
        exact hrow
      · have hchildren : block.children = [] := by rw [hmade.children_eq, hmark]; rfl
        rw [statements_eq_nil hchildren] at hn
        cases hn

/-- Comments and a mark after them. -/
theorem dropWhile_mark (q : Place) (hxs : ∀ n ∈ xs, isExtra n = true) :
    (xs ++ [markAt q]).dropWhile isExtra = [markAt q] := by
  rw [List.dropWhile_append_of_pos hxs]
  rfl

/-- The parts of an indented block. -/
def blockParts : Phrase := .seq (.many (the .statement)) (.term { form := .dedent })

theorem emits_blockParts : table.emits leafSort 40 isPart blockParts = true := by decide +kernel

theorem emits_newline : table.emits leafSort 5 isPart (.term { form := .newline }) = true := by
  decide +kernel

theorem emits_simpleStatements : table.emits leafSort 40 isPart (the .simpleStatements) = true := by
  decide +kernel

theorem leads_statements :
    leads 100 false (fun _ named _ => named) (.many (the .statement)) = true := by decide +kernel

theorem leads_simpleStatements :
    leads 80 true (fun _ named _ => named) (the .simpleStatements) = true := by decide +kernel

/-- The parts of an indented block have one semicolon between them at most. -/
theorem apart_blockParts {mode : Mode} (h : table.Yields mode blockParts s xs s')
    (hs : s.place.Sane) : Apart xs := by
  cases h with
  | seq hmany hdedent =>
  obtain ⟨pieces, rfl, hpieces⟩ := hmany.pieces (fun s => s.place.Sane)
    (fun h hs => Place.Sane.leads hs (readTerminal_sorted h).1) hs
  refine (Apart.flatten fun ys hys => ?_).append (apart_mark hdedent rfl)
  obtain ⟨s₁, s₂, hs₁, hpiece⟩ := hpieces ys hys
  exact apart_statement hpiece hs₁

/-- An indented block begins with a statement, or holds nothing but comments. -/
theorem begins_blockParts {mode : Mode} (h : table.Yields mode blockParts s xs s')
    (hs : s.place.Sane) :
    (∃ comments first, Opening (fun _ named _ => named) s xs comments first) ∨
      ∃ q, xs.dropWhile isExtra = [markAt q] := by
  cases h with
  | @seq _ _ _ _ ys s₁ zs _ hmany hdedent =>
  obtain ⟨comments, first, hopen⟩ | ⟨-, hneutral⟩ := begins_of_yields hmany hs leads_statements
  · exact .inl ⟨comments, first, hopen.append zs⟩
  · obtain ⟨comments, q, hzs, hcomments, -⟩ :=
      readTerminal_mark (.inr (.inr rfl)) (readTerminal_of_yields hdedent)
    refine .inr ⟨q, ?_⟩
    rw [hzs, ← List.append_assoc]
    apply dropWhile_mark
    intro n hn
    rcases List.mem_append.mp hn with hn | hn
    · exact hneutral.extras n hn
    · exact (hcomments n hn).extra

/-- An indented block stands below the line of the colon. -/
theorem suite_of_indent {mode : Mode}
    (h : table.Yields mode (.seq (.term { form := .indent }) (the .block)) s xs s')
    (hs : s.place.Sane) : ∃ before block, Suite s.place.row xs before block := by
  -- the row is an indentation, and behind it the block with its own indentation
  cases h with
  | @seq _ _ _ _ ys s₁ zs _ hindent hblock =>
  cases hblock with
  | call hblock =>
  cases hblock with
  | @node _ _ _ _ ws _ hblock =>
  cases hblock with
  | within hblock =>
  obtain ⟨comments, q, hys, hcomments, hleads, hplace, hgap⟩ :=
    readTerminal_mark (.inr (.inl rfl)) (readTerminal_of_yields hindent)
  obtain ⟨g, hg, hends, hdeep⟩ := hgap rfl
  have hsane : s₁.place.Sane := by rw [hplace]; exact hs.leads hleads
  -- the indentation ends a line, so the first statement stands on a later row
  have hrow : s.place.row < (extrasAt s₁.place).2.row := by
    have hbelow := row_lt_of_gap (hplace ▸ hsane) hg hends hdeep
    have hlater := hleads.row_le
    rw [hplace]
    omega
  have hbefore : ∀ n ∈ ys, isExtra n = true ∨ isMark n = true := by
    rw [hys]
    intro n hn
    rcases List.mem_append.mp hn with hn | hn
    · exact .inl (hcomments n hn).extra
    · rw [List.mem_singleton.mp hn]; exact .inr rfl
  refine suite_of_wrap s₁ s.place.row ys hbefore (ofSort_of_yields hblock emits_blockParts)
    (apart_blockParts hblock hsane) ?_
  -- with a statement the row of the block is known; without one there is nothing to show
  rcases begins_blockParts hblock hsane with ⟨comments', first, hopen⟩ | hmark
  · refine .inl ⟨comments', first, hopen, fun hsame => ?_⟩
    have hfirst := hopen.row_le
    omega
  · exact .inr hmark

/-- **What follows the colon of a header is a body.** -/
theorem yields_suite {mode : Mode} (h : table.Yields mode (rule .suite) s xs s')
    (hs : s.place.Sane) : ∃ before block, Suite s.place.row xs before block := by
  cases h with
  | left h => exact suite_of_indent h hs
  | right h =>
    cases h with
    | seq havoid h =>
    cases havoid with
    | avoid =>
    cases h with
    | left h =>
      -- nothing follows on the line, and no block either
      cases h with
      | @node _ _ _ _ ws _ hline =>
      obtain ⟨comments, q, hws, hcomments, -⟩ :=
        readTerminal_mark (.inl rfl) (readTerminal_of_yields hline)
      refine suite_of_wrap s s.place.row [] (fun n hn => by cases hn)
        (ofSort_of_yields hline emits_newline) (apart_mark hline rfl) (.inr ⟨q, ?_⟩)
      rw [hws]
      exact dropWhile_mark q fun n hn => (hcomments n hn).extra
    | right h =>
      -- statements on the line of the colon
      cases h with
      | @node _ _ _ _ ws _ hline =>
      cases hline with
      | within hline =>
      obtain ⟨comments, first, hopen⟩ | ⟨hmust, -⟩ :=
        begins_of_yields hline hs leads_simpleStatements
      · exact suite_of_wrap s s.place.row [] (fun n hn => by cases hn)
          (ofSort_of_yields hline emits_simpleStatements) (apart_simpleStatements hline hs)
          (.inl ⟨comments, first, hopen, hopen.same_row⟩)
      · cases hmust

/-! ### Definitions -/

/-- The parts of a definition: a header, a colon, and a body.  Only the body plays the role of one, and
    nothing stands between the colon and a statement on its row. -/
structure Headed (xs before between : List Node) (colon block : Node) : Prop where
  split : xs = before ++ colon :: between ++ [block]
  colon_kind : colon.kind = ":"
  role_ne : ∀ n ∈ before ++ colon :: between, n.role ≠ "body"
  role_eq : block.role = "body"
  extras : ∀ n ∈ between, isExtra n = true ∨ isMark n = true
  kind_eq : block.kind = "block"
  parts : ∀ n ∈ block.children, isMark n = false ∧ OfSort isPart n
  apart : (semicolons false block.children).isSome = true
  first : ∀ n ∈ (statements block).head?, block.children.head? = some n ∧ block.start = n.start ∧
    (n.row = colon.lastRow → between = [])

/-- A node is not in the role of a body. -/
def notBody (_ : String) (_ : Bool) (role : String) : Bool := role != "body"

/-- The rules of definitions: what comes before the colon has no body. -/
inductive Header : Phrase → Prop where
  | body : Header (body "body")
  | seq {depth a b} (ha : table.emits leafSort depth notBody a = true) (hb : Header b) :
      Header (.seq a b)
  | within {change a} (ha : Header a) : Header (.within change a)

/-- No node that a rule without a body yields is one. -/
theorem role_ne_of_yields {mode : Mode} {a : Phrase} (h : table.Yields mode a s xs s') {depth : Nat}
    (hsort : table.emits leafSort depth notBody a = true) : ∀ n ∈ xs, n.role ≠ "body" := by
  have hplain := h.role_of_extra fun h x hx => ((readTerminal_sorted h).2 x hx).role_eq
  intro n hn
  rcases ofSort_of_yields h hsort n hn with hextra | hmark | hrole
  · rw [hplain n hn (.inl hextra)]; decide
  · rw [hplain n hn (.inr hmark)]; decide
  · simpa [notBody] using hrole

/-- A body in its role. -/
theorem Suite.assign {row : Nat} {before : List Node} {block : Node}
    (h : Suite row xs before block) :
    Grammar.assign "body" xs = before ++ [block.withRole "body"] := by
  have hcode : isExtra block = false ∧ isMark block = false := by
    apply isExtra_of_isCodeKind
    rw [h.kind_eq]
    decide
  have hbefore : before.map (fun n => if isExtra n || isMark n then n else n.withRole "body")
      = before := by
    refine (List.map_congr_left fun n hn => ?_).trans (List.map_id before)
    rw [if_pos (by simpa using h.extras n hn)]
    rfl
  rw [h.split, Grammar.assign, List.map_append, hbefore]
  simp [hcode]

/-- **A rule of a definition yields a header and a body.** -/
theorem headed_of_yields {mode : Mode} {a : Phrase} (ha : Header a)
    (h : table.Yields mode a s xs s') (hs : s.place.Sane) :
    ∃ before between colon block, Headed xs before between colon block := by
  -- a header is a list of tokens that ends in the colon and the suite, with nothing of role body before
  induction ha generalizing mode s xs s' with
  | body =>
    cases h with
    | @seq _ _ _ _ ys s₁ zs _ hcolon hbody =>
    cases hbody with
    | @role _ _ _ _ ws _ hsuite =>
    cases hsuite with
    | call hsuite =>
    have hplain := hsuite.role_of_extra fun h x hx => ((readTerminal_sorted h).2 x hx).role_eq
    have hsane := sane_of_yields hcolon hs
    obtain ⟨kind, named, size, -, hscan, hys, hplace⟩ :=
      readTerminal_code rfl rfl (readTerminal_of_yields hcolon)
    obtain ⟨before, block, hsuite'⟩ := yields_suite hsuite hsane
    -- the only terminal with a colon of its own is the one the header names
    have hkind : kind = ":" := by
      have := scan_sorts hscan
      simp only [Form.sorts, List.map_cons, List.map_nil, List.mem_singleton, Prod.mk.injEq] at this
      exact this.1
    refine ⟨(extrasAt s.place).1, before, (extrasAt s.place).2.leaf kind named size,
      block.withRole "body", ?_⟩
    constructor
    case split => rw [hsuite'.assign, hys]; simp
    case colon_kind => exact hkind
    -- before the colon stand tokens that carry no role, and behind it the suite's own comments
    case role_ne =>
      intro n hn
      rw [List.append_cons, ← hys] at hn
      rcases List.mem_append.mp hn with hn | hn
      · rw [((readTerminal_sorted (readTerminal_of_yields hcolon)).2 n hn).role_eq]; decide
      · have hmem : n ∈ ws := by rw [hsuite'.split]; exact List.mem_append_left _ hn
        rw [hplain n hmem (hsuite'.extras n hn)]; decide
    case role_eq => cases block; rfl
    case extras => exact hsuite'.extras
    case kind_eq => rw [← hsuite'.kind_eq]; cases block; rfl
    case parts => have := hsuite'.parts; cases block; exact this
    case apart => have := hsuite'.apart; cases block; exact this
    case first =>
      have := hsuite'.first
      rw [hplace] at this
      cases block; exact this
  | @seq _ a b ha hb ih =>
    cases h with
    | @seq _ _ _ _ ys s₁ zs _ hfirst hrest =>
    obtain ⟨before, between, colon, block, hheaded⟩ := ih hrest (sane_of_yields hfirst hs)
    refine ⟨ys ++ before, between, colon, block, { hheaded with split := ?_, role_ne := ?_ }⟩
    · rw [hheaded.split]; simp
    · intro n hn
      rw [List.append_assoc] at hn
      rcases List.mem_append.mp hn with hn | hn
      · exact role_ne_of_yields hfirst ha n hn
      · exact hheaded.role_ne n hn
  | within _ ih =>
    cases h with
    | within h => exact ih h hs

/-- What is made of the parts of a definition has them, but for the comments in front of it and the
    marks. -/
theorem Headed.made {kind : String} {before between : List Node} {colon block n : Node}
    (h : Headed xs before between colon block) (hmade : Made kind xs n) :
    Headed n.children ((before.dropWhile isExtra).filter (!isMark ·)) (between.filter (!isMark ·))
      colon block := by
  have hcolon : isExtra colon = false ∧ isMark colon = false :=
    isExtra_of_isCodeKind (by rw [h.colon_kind]; decide)
  have hblock : isExtra block = false ∧ isMark block = false :=
    isExtra_of_isCodeKind (by rw [h.kind_eq]; decide)
  -- comments before the header's first token stay outside; a header always has one, the colon at least
  have hdrop : xs.dropWhile isExtra = before.dropWhile isExtra ++ colon :: (between ++ [block]) := by
    rw [h.split, List.append_assoc, List.dropWhile_append]
    split
    · rename_i hnone
      rw [List.isEmpty_iff.mp hnone, List.cons_append, List.dropWhile_cons_of_neg (by simp [hcolon])]
      rfl
    · rfl
  constructor
  case split =>
    rw [hmade.children_eq, hdrop]
    simp [hcolon, hblock]
  case role_ne =>
    intro x hx
    apply h.role_ne
    rcases List.mem_append.mp hx with hx | hx
    · exact List.mem_append_left _ ((List.dropWhile_sublist _).subset (List.mem_filter.mp hx).1)
    · refine List.mem_append_right _ ?_
      rcases List.mem_cons.mp hx with rfl | hx
      · exact List.mem_cons_self
      · exact List.mem_cons_of_mem _ (List.mem_filter.mp hx).1
  case extras => exact fun x hx => h.extras x (List.mem_filter.mp hx).1
  case first =>
    intro x hx
    obtain ⟨hhead, hstart, hrow⟩ := h.first x hx
    refine ⟨hhead, hstart, fun hsame => ?_⟩
    rw [hrow hsame]
    rfl
  case colon_kind => exact h.colon_kind
  case role_eq => exact h.role_eq
  case kind_eq => exact h.kind_eq
  case parts => exact h.parts
  case apart => exact h.apart

/-- The kind is that of a definition. -/
def isDefinitionKind (kind : String) : Bool :=
  kind == "function_definition" || kind == "class_definition"

/-- The grammar speaks of definitions in one place each, and no token is one, or a comment. -/
def admitted : Admitted Terminal Production Mode where
  terminal := fun t => ∀ x ∈ t.form.sorts, isCodeKind x.1 = true ∧ isDefinitionKind x.1 = false
  construct := fun kind a => isDefinitionKind kind = true → Header a

/-- A rule without definitions. -/
theorem covers_of_plain {a : Phrase}
    (hterminals : (a.terminals.all fun t => t.form.sorts.all fun x =>
      isCodeKind x.1 && !isDefinitionKind x.1) = true)
    (hconstructs : (a.constructs.all fun c => !isDefinitionKind c.1) = true) : admitted.Covers a where
  terminals := by
    intro t ht x hx
    have := List.all_eq_true.mp (List.all_eq_true.mp hterminals t ht) x hx
    simpa using this
  constructs := by
    intro c hc hkind
    have := List.all_eq_true.mp hconstructs c hc
    rw [hkind] at this
    cases this

/-- A definition without others in its header. -/
theorem covers_of_header {kind : String} {a : Phrase} (ha : Header a)
    (hterminals : (a.terminals.all fun t => t.form.sorts.all fun x =>
      isCodeKind x.1 && !isDefinitionKind x.1) = true)
    (hconstructs : (a.constructs.all fun c => !isDefinitionKind c.1) = true) :
    admitted.Covers (.node kind a) where
  terminals := (covers_of_plain hterminals hconstructs).terminals
  constructs := by
    intro c hc
    rcases List.mem_cons.mp hc with rfl | hc
    · exact fun _ => ha
    · exact (covers_of_plain hterminals hconstructs).constructs c hc

/-- The grammar speaks only of what is admitted. -/
theorem admitted_covers (p : Production) : admitted.Covers (rule p) := by
  cases p with
  | functionDefinition =>
    refine covers_of_header ?_ (by decide +kernel) (by decide +kernel)
    refine @Header.seq 5 _ _ (by decide +kernel) (@Header.seq 5 _ _ (by decide +kernel) (.within ?_))
    refine @Header.seq 5 _ _ (by decide +kernel) (@Header.seq 5 _ _ (by decide +kernel) ?_)
    exact @Header.seq 5 _ _ (by decide +kernel) (@Header.seq 5 _ _ (by decide +kernel) .body)
  | classDefinition =>
    refine covers_of_header ?_ (by decide +kernel) (by decide +kernel)
    refine @Header.seq 5 _ _ (by decide +kernel) (.within ?_)
    refine @Header.seq 5 _ _ (by decide +kernel) (@Header.seq 5 _ _ (by decide +kernel) ?_)
    exact @Header.seq 5 _ _ (by decide +kernel) .body
  | parameter typed => cases typed <;> exact covers_of_plain (by decide +kernel) (by decide +kernel)
  | _ => exact covers_of_plain (by decide +kernel) (by decide +kernel)

/-- A source that can be parsed is read from its beginning on, and the root covers all that was read. -/
theorem yields_of_parse {code : Bytes} {root : Node} (h : parse code = .ok root) : ∃ nodes, ∃ s : State,
    table.Yields .line (rule .module) { place := .origin code } nodes s ∧ root.kind = "module" ∧
      root.start = 0 ∧ root.stop = s.place.offset ∧ root.children = nodes.filter (!isMark ·) := by
  unfold parse at h
  dsimp only at h
  split at h
  · rename_i nodes s hread
    cases h
    exact ⟨nodes, s, Table.yields_of_read (congrArg Outcome.parsed? hread), rfl, rfl, rfl, rfl⟩
  · cases h

/-- Every node of a parsed source but the root comes from the grammar. -/
theorem origin_of_parse {code : Bytes} {root : Node} (h : parse code = .ok root) :
    root.kind = "module" ∧
      table.AllOrigin (fun s => s.place.Sane) admitted root.children := by
  obtain ⟨nodes, s, hyields, hkind, -, -, hchildren⟩ := yields_of_parse h
  have horigin : table.AllOrigin (fun s => s.place.Sane) admitted nodes :=
    hyields.origin admitted_covers (fun h x hx => ((readTerminal_sorted h).2 x hx).leaf)
      (fun h hs => Place.Sane.leads hs (readTerminal_sorted h).1) (admitted_covers _)
      (Place.sane_origin code)
  rw [hchildren]
  exact ⟨hkind, fun x hx => horigin x (List.mem_filter.mp hx).1⟩

/-- A node of a parsed source comes from the grammar, or is the root. -/
theorem origin_of_mem {code : Bytes} {root n : Node} (h : parse code = .ok root)
    (hn : n ∈ root.preorder) : n = root ∨
      ∃ role n', table.Origin (fun s => s.place.Sane) admitted n' ∧ n = n'.withRole role := by
  rcases mem_preorder.mp hn with hroot | ⟨c, hc, hn⟩
  · exact .inl hroot
  · exact .inr ((origin_of_parse h).2 c hc n hn)

/-- The comments and joints of a parsed source are named. -/
theorem named_of_parse {code : Bytes} {root n : Node} (h : parse code = .ok root)
    (hn : n ∈ root.preorder) (hextra : isExtra n = true) : n.named = true := by
  rcases origin_of_mem h hn with rfl | ⟨role, n', horigin, rfl⟩
  · simp [isExtra, Node.isComment, (origin_of_parse h).1] at hextra
  · have hsame : (n'.withRole role).named = n'.named := by cases n'; rfl
    rw [hsame]
    rw [isExtra_withRole] at hextra
    rcases horigin with ⟨m, t, s, ys, s', hterminal, hread, hmem⟩ | ⟨_, _, _, _, _, _, _, _, _, hmade⟩
    · rcases ((readTerminal_sorted hread).2 n' hmem).sort with haside | hmark | hsort
      · exact haside.named
      · rw [isMark, beq_iff_eq] at hmark
        simp [isExtra, Node.isComment, hmark, markKind] at hextra
      · rw [(isExtra_of_isCodeKind (hterminal _ hsort).1).1] at hextra
        cases hextra
    · exact hmade.named

/-- **The definitions of a parsed source have a header and a body.** -/
theorem headed_of_parse {code : Bytes} {root n : Node} (h : parse code = .ok root)
    (hn : n ∈ root.preorder) (hdefinition : isDefinition n = true) :
    ∃ before between colon block, Headed n.children before between colon block := by
  have hkind : isDefinitionKind n.kind = true := hdefinition
  rcases origin_of_mem h hn with rfl | ⟨role, n', horigin, rfl⟩
  · rw [(origin_of_parse h).1] at hkind
    cases hkind
  · have hsame : (n'.withRole role).kind = n'.kind := by cases n'; rfl
    have hchildren : (n'.withRole role).children = n'.children := by cases n'; rfl
    rw [hsame] at hkind
    rw [hchildren]
    rcases horigin with ⟨m, t, s, ys, s', hterminal, hread, hmem⟩ |
      ⟨kind, a, m, s, ys, s', hconstruct, hs, hyields, hmade⟩
    · -- no token is a definition
      exfalso
      rcases ((readTerminal_sorted hread).2 n' hmem).sort with haside | hmark | hsort
      · have hextra := haside.extra
        simp only [isExtra, Node.isComment, Bool.or_eq_true, beq_iff_eq] at hextra
        rcases hextra with hextra | hextra <;> rw [hextra] at hkind <;> cases hkind
      · rw [isMark, beq_iff_eq] at hmark
        rw [hmark] at hkind
        cases hkind
      · rw [(hterminal _ hsort).2] at hkind
        cases hkind
    · rw [hmade.kind_eq] at hkind
      obtain ⟨before, between, colon, block, hheaded⟩ :=
        headed_of_yields (hconstruct hkind) hyields hs
      exact ⟨_, _, colon, block, hheaded.made hmade⟩

end Docsmith.Python
