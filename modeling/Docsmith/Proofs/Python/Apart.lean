import Docsmith.Proofs.Patch.Declared
import Docsmith.Proofs.Python.Slots

namespace Docsmith

/-!
# Slots of Python declarations are apart

No two declarations of a Python source share code to write their documentation to.  The slot of a
definition lies in it, behind the colon of its header; that of a class ends before the members of the class
begin; and that of a value lies between the value and the construct before it.

* `Python.WellFormed`: what is true of the tree of a Python source.
* `DocSlot.In`: a slot lies in a node.
* `Python.literalSlot_spec`: what the slot of a string literal is, by the layout of the body.
* `Python.docstringSlot_in`: the slot of a definition, and `Python.slots_class`: those of a class and its
  members.
* `Python.topLevel_apart`: those of a statement.
* `Python.declarations_apart`: those of a source.
* `Python.slots_never_collide`: so all comments on a source find their way into it.
-/

/-- The slot lies in a node, and does not begin where the node does. -/
structure DocSlot.In (s : DocSlot) (n : Node) : Prop where
  after : n.start < s.start
  ordered : s.start ≤ s.stop
  start_lt : s.start < n.stop
  stop_le : s.stop ≤ n.stop

/-- A slot in a part of a node lies in the node. -/
theorem DocSlot.In.mono {s : DocSlot} {n d : Node} (h : s.In d) (hstart : n.start ≤ d.start)
    (hstop : d.stop ≤ n.stop) : s.In n :=
  ⟨Nat.lt_of_le_of_lt hstart h.after, h.ordered, Nat.lt_of_lt_of_le h.start_lt hstop,
    Nat.le_trans h.stop_le hstop⟩

namespace Python

open Text

/-- The tree of a source as a parser of Python gives it.  Children are in order inside their parents with
    only white space between them, and no statement or colon is empty.  Rows count line feeds, and a
    statement that ends on the row where the next one begins ends with ink.  The header of a definition
    ends with a colon, and then comes the body. -/
structure WellFormed (t : SourceTree) : Prop where
  bounded : t.root.stop ≤ t.code.length
  inside : ∀ n ∈ t.root.preorder, ∀ c ∈ n.children, n.start ≤ c.start ∧ c.stop ≤ n.stop
  spaced : t.spaced = true
  solid : ∀ c ∈ t.root.children, c.start < c.stop
  rows : ∀ c ∈ t.root.children, c.row = t.code.rowAt c.start ∧ c.lastRow = t.code.rowAt c.stop
  ends : t.root.children.IsChain fun a b =>
    a.lastRow = b.row → (t.code[a.stop - 1]?).any (!Bytes.isBlank ·) = true
  bodies : ∀ n ∈ t.root.preorder, isDefinition n = true → ∀ block ∈ n.child? "body",
    ∀ c ∈ block.children, c.start < c.stop
  colons : ∀ n ∈ t.root.preorder, isDefinition n = true →
    ∀ colon ∈ (n.children.filter (·.kind == ":")).getLast?, colon.start < colon.stop ∧
      ∀ block ∈ n.child? "body", colon.stop ≤ block.start

instance (t : SourceTree) : Decidable (WellFormed t) :=
  decidable_of_iff (t.root.stop ≤ t.code.length ∧
      (∀ n ∈ t.root.preorder, ∀ c ∈ n.children, n.start ≤ c.start ∧ c.stop ≤ n.stop) ∧
      t.spaced = true ∧ (∀ c ∈ t.root.children, c.start < c.stop) ∧
      (∀ c ∈ t.root.children, c.row = t.code.rowAt c.start ∧ c.lastRow = t.code.rowAt c.stop) ∧
      (t.root.children.IsChain fun a b =>
        a.lastRow = b.row → (t.code[a.stop - 1]?).any (!Bytes.isBlank ·) = true) ∧
      (∀ n ∈ t.root.preorder, isDefinition n = true → ∀ block ∈ n.child? "body",
        ∀ c ∈ block.children, c.start < c.stop) ∧
      ∀ n ∈ t.root.preorder, isDefinition n = true →
        ∀ colon ∈ (n.children.filter (·.kind == ":")).getLast?, colon.start < colon.stop ∧
          ∀ block ∈ n.child? "body", colon.stop ≤ block.start)
    ⟨fun ⟨h₁, h₂, h₃, h₄, h₅, h₆, h₇, h₈⟩ => ⟨h₁, h₂, h₃, h₄, h₅, h₆, h₇, h₈⟩,
      fun ⟨h₁, h₂, h₃, h₄, h₅, h₆, h₇, h₈⟩ => ⟨h₁, h₂, h₃, h₄, h₅, h₆, h₇, h₈⟩⟩

variable {t : SourceTree} {n block first : Node} {others before : List Node}

/-- In the tree of a parsed source the colon of a definition stands before its body. -/
theorem colon_le_body (hparse : parse t.code = .ok t.root) (hspaced : t.spaced = true)
    (hn : n ∈ t.root.preorder) (hdefinition : isDefinition n = true) :
    ∀ colon ∈ (n.children.filter (·.kind == ":")).getLast?, ∀ block ∈ n.child? "body",
      colon.stop ≤ block.start := by
  obtain ⟨before, between, colon, block, hheaded⟩ := headed_of_parse hparse hn hdefinition
  rw [hheaded.lastColon, hheaded.body?]
  rintro _ ⟨⟩ _ ⟨⟩
  have hpair := pairwise_of_spaced (SourceTree.spaced_children hspaced hn)
  rw [hheaded.split, List.append_assoc] at hpair
  exact List.rel_of_pairwise_cons (List.pairwise_append.mp hpair).2.1 (by simp)

/-- The statements of a source are aligned. -/
theorem WellFormed.aligned (h : WellFormed t) : Aligned t.code t.root.children where
  ordered := pairwise_of_spaced (SourceTree.spaced_children h.spaced (mem_preorder.mpr (.inl rfl)))
  solid := h.solid
  bounded c hc := Nat.le_trans (h.inside t.root (mem_preorder.mpr (.inl rfl)) c hc).2 h.bounded
  rows := h.rows
  shows := by
    have hends := h.ends
    have hsolid := h.solid
    generalize t.root.children = xs at hends hsolid
    refine List.IsChain.imp_of_mem_imp (fun a b ha _ hab hrow => ?_) hends
    obtain ⟨x, hx, hdark⟩ := (Option.any_eq_true _ _).mp (hab hrow)
    exact Bytes.shows_of_last (hsolid a ha) hx (by simpa using hdark)

/-! ### The slot of a definition -/

/-- The first statement of a block among its constructs. -/
theorem statements_split (h : statements block = first :: others) :
    ∃ comments rest, block.namedChildren = comments ++ first :: rest ∧
      afterFirst? block first = rest.head? ∧ (∀ m ∈ others, m ∈ rest) := by
  obtain ⟨comments, rest, hsplit, hcomments, hfirst, hrest⟩ := List.filter_eq_cons_iff.mp h
  refine ⟨comments, rest, hsplit, ?_, fun m hm => ?_⟩
  · have hdrop : (block.namedChildren.dropWhile fun n => n.start != first.start || n.isComment)
        = first :: rest := by
      have hcomment : ∀ c ∈ comments, c.isComment = true := fun c hc => by simpa using hcomments c hc
      rw [hsplit, List.dropWhile_append_of_pos fun c hc => by simp [hcomment c hc]]
      rw [List.dropWhile_cons_of_neg (by simpa using hfirst)]
    rw [afterFirst?, hdrop]
    rfl
  · rw [← hrest] at hm
    exact (List.mem_filter.mp hm).1

/-- **The slot of a literal by the layout of the body.**  If the literal does not share its line, and something
    follows on a later one, the slot reaches up to that; else it is the literal. -/
theorem literalSlot_spec (t : SourceTree) (indent : String) (inline : Bool) (block first : Node) :
    Returns (literalSlot t indent inline block first) fun slot => slot.style = .docstring ∧
      slot.start = first.start ∧
      ((∃ next ∈ afterFirst? block first, (inline = false ∧ first.lastRow < next.row) ∧ slot.stop = next.start ∧
          slot.clear = some (if (statements block).length > 1 then []
            else encode "pass" ++ t.code.slice first.stop next.start)) ∨
        (∀ next ∈ afterFirst? block first, ¬(inline = false ∧ first.lastRow < next.row)) ∧
          slot.stop = first.stop ∧ slot.clear = some (encode "pass")) := by
  unfold literalSlot
  refine (Returns.of_any _).bind fun texts _ => ?_
  -- the clause behind the literal decides: another statement on a line of its own, or the literal's end
  cases hnext : afterFirst? block first with
  | none =>
    refine (Returns.of_any _).bind fun follow _ => .pure ⟨rfl, rfl, .inr ⟨?_, rfl, rfl⟩⟩
    rintro next ⟨⟩
  | some next =>
    dsimp only
    split
    · rename_i hlayout
      refine (Returns.of_any _).bind fun follow _ => .pure ⟨rfl, rfl, .inl ⟨next, rfl, ?_, rfl, rfl⟩⟩
      simpa using hlayout
    · rename_i hlayout
      refine (Returns.of_any _).bind fun follow _ => .pure ⟨rfl, rfl, .inr ⟨?_, rfl, rfl⟩⟩
      rintro next' ⟨⟩
      simpa using hlayout

/-- The slot of a body that begins with a string literal: it ends with the literal, or where the next
    construct begins. -/
theorem literalSlot_cases (t : SourceTree) (indent : String) (inline : Bool) (block first : Node) :
    Returns (literalSlot t indent inline block first) fun slot => slot.start = first.start ∧
      (slot.stop = first.stop ∨ ∃ next ∈ afterFirst? block first, slot.stop = next.start) := by
  intro slot hslot
  obtain ⟨-, hstart, hlayout⟩ := literalSlot_spec t indent inline block first slot hslot
  rcases hlayout with ⟨next, hnext, -, hstop, -⟩ | ⟨-, hstop, -⟩
  · exact ⟨hstart, .inr ⟨next, hnext, hstop⟩⟩
  · exact ⟨hstart, .inl hstop⟩

/-- The parts of a definition around the start of its body: the colon, the first statement, and what
    follows the statement in the body. -/
structure Opens (n colon first : Node) (next? : Option Node) (others : List Node) : Prop where
  colon_lt : n.start < colon.stop
  colon_le : colon.stop ≤ first.start
  first_lt : first.start < first.stop
  first_le : first.stop ≤ n.stop
  next_le : ∀ next ∈ next?, first.stop ≤ next.start ∧ next.start ≤ n.stop
  others_le : ∀ m ∈ others, first.stop ≤ m.start ∧ ∀ next ∈ next?, next.start ≤ m.start

/-- The parts of a definition are where they should be. -/
theorem WellFormed.opens {colon : Node} (h : WellFormed t) (hn : n ∈ t.root.preorder)
    (hdefinition : isDefinition n = true)
    (hcolon : (n.children.filter (·.kind == ":")).getLast? = some colon)
    (hbody : n.child? "body" = some block) (hstatements : statements block = first :: others) :
    Opens n colon first (afterFirst? block first) others := by
  obtain ⟨hcolon_lt, hcolon_le⟩ := h.colons n hn hdefinition colon hcolon
  have hcolon_mem : colon ∈ n.children := (List.mem_filter.mp (List.mem_of_getLast? hcolon)).1
  have hblock_mem : block ∈ n.children := child?_mem hbody
  have hblock : block ∈ t.root.preorder := preorder_child hn hblock_mem
  have hcolon_in := h.inside n hn colon hcolon_mem
  have hblock_in := h.inside n hn block hblock_mem
  have hbehind := hcolon_le block hbody
  obtain ⟨comments, rest, hsplit, hafter, hothers⟩ := statements_split hstatements
  -- the constructs of the body are in order, and none of them is empty
  have hpart : ∀ c ∈ comments ++ first :: rest, c ∈ block.children := fun c hc =>
    (List.mem_filter.mp (hsplit ▸ hc)).1
  have hpair : (comments ++ first :: rest).Pairwise fun a b => a.stop ≤ b.start := by
    rw [← hsplit]
    exact (pairwise_of_spaced (SourceTree.spaced_children h.spaced hblock)).sublist
      List.filter_sublist
  have hrest := (List.pairwise_append.mp hpair).2.1
  have hin : ∀ c ∈ comments ++ first :: rest,
      block.start ≤ c.start ∧ c.start < c.stop ∧ c.stop ≤ block.stop := fun c hc =>
    ⟨(h.inside block hblock c (hpart c hc)).1, h.bodies n hn hdefinition block hbody c (hpart c hc),
      (h.inside block hblock c (hpart c hc)).2⟩
  have hfirst := hin first (by simp)
  refine ⟨by omega, by omega, by omega, by omega, fun next hnext => ?_, fun m hm => ?_⟩
  · rw [hafter] at hnext
    have hnext_mem : next ∈ rest := List.mem_of_head? hnext
    have hnext_in := hin next (by simp [hnext_mem])
    have hlater := List.rel_of_pairwise_cons hrest hnext_mem
    exact ⟨hlater, by omega⟩
  · have hm_mem := hothers m hm
    refine ⟨List.rel_of_pairwise_cons hrest hm_mem, fun next hnext => ?_⟩
    rw [hafter] at hnext
    cases rest with
    | nil => cases hnext
    | cons x rest =>
      cases hnext
      rcases List.mem_cons.mp hm_mem with rfl | hm_mem
      · exact Nat.le_refl _
      · have hnext_in := hin next (by simp)
        have hlater := List.rel_of_pairwise_cons (List.pairwise_cons.mp hrest).2 hm_mem
        omega

/-- **The slot of a definition lies in it**, and ends before the statements of the body begin, string
    literals apart. -/
theorem docstringSlot_in (h : WellFormed t) (hn : n ∈ t.root.preorder)
    (hdefinition : isDefinition n = true) :
    Returns (docstringSlot t n) fun slot => slot.In n ∧
      ∀ block ∈ n.child? "body", ∀ m ∈ statements block, isDocstring m = false →
        slot.stop ≤ m.start := by
  unfold docstringSlot
  cases hcolon : (n.children.filter (·.kind == ":")).getLast? with
  | none => exact .error _ _
  | some colon =>
    cases hbody : n.child? "body" with
    | none => exact .error _ _
    | some block =>
      cases hstatements : statements block with
      | nil => simp only [Option.map_some, Option.getD_some, hstatements]; exact .error _ _
      | cons first others =>
        simp only [Option.map_some, Option.getD_some, hstatements]
        obtain ⟨hcolon_lt, hcolon_le, hfirst_lt, hfirst_le, hnext, hothers⟩ :=
          h.opens hn hdefinition hcolon hbody hstatements
        have hall (stop : Nat) (hfirst : isDocstring first = false → stop ≤ first.start)
            (hlater : ∀ m ∈ others, stop ≤ m.start) :
            ∀ b ∈ some block, ∀ m ∈ statements b, isDocstring m = false → stop ≤ m.start := by
          rintro b ⟨⟩ m hm hliteral
          rw [hstatements] at hm
          rcases List.mem_cons.mp hm with rfl | hm
          · exact hfirst hliteral
          · exact hlater m hm
        split
        · -- a literal, with the gap behind it or without
          rename_i hliteral
          intro slot hslot
          obtain ⟨hstart, hstop | ⟨next, hmem, hstop⟩⟩ := literalSlot_cases _ _ _ _ _ slot hslot
          · refine ⟨⟨by omega, by omega, by omega, by omega⟩, ?_⟩
            rw [hstop]
            exact hall _ (fun hno => by rw [hliteral] at hno; cases hno) fun m hm => (hothers m hm).1
          · have hplace := hnext next hmem
            refine ⟨⟨by omega, by omega, by omega, by omega⟩, ?_⟩
            rw [hstop]
            exact hall _ (fun hno => by rw [hliteral] at hno; cases hno)
              fun m hm => (hothers m hm).2 next hmem
        · have hbefore : ∀ m ∈ others, first.start ≤ m.start := fun m hm =>
            Nat.le_trans (Nat.le_of_lt hfirst_lt) (hothers m hm).1
          split
          · exact .pure ⟨⟨hcolon_lt, hcolon_le, by dsimp only; omega, by dsimp only; omega⟩,
              hall _ (fun _ => Nat.le_refl _) hbefore⟩
          · exact .pure ⟨⟨by dsimp only; omega, Nat.le_refl _, by dsimp only; omega,
              by dsimp only; omega⟩, hall _ (fun _ => Nat.le_refl _) hbefore⟩

/-! ### Classes -/

/-- The definition in a node lies in it, and the node is no expression and no comment. -/
theorem unwrap_inside (h : WellFormed t) (hn : n ∈ t.root.preorder) :
    Returns (unwrap t n) fun found => ∀ x ∈ found, (x.1 ∈ t.root.preorder ∧ isDefinition x.1 = true) ∧
      n.start ≤ x.1.start ∧ x.1.stop ≤ n.stop ∧ n.kind ≠ "expression_statement" ∧
      n.isComment = false := by
  have hmem := unwrap_mem (t := t) hn
  -- that what is unwrapped lies in the tree is known; here only its place is left
  suffices hplace : Returns (unwrap t n) fun found => ∀ x ∈ found,
      n.start ≤ x.1.start ∧ x.1.stop ≤ n.stop ∧ n.kind ≠ "expression_statement" ∧
        n.isComment = false from
    fun found hfound x hx => ⟨hmem found hfound x hx, hplace found hfound x hx⟩
  unfold unwrap
  -- a decorated definition gives the one inside it, and any other node gives itself or nothing
  split
  · rename_i hkind
    rw [beq_iff_eq] at hkind
    refine (Returns.of_any (decoratorNames t n)).bind fun decorators _ => ?_
    cases hinner : n.child? "definition" with
    | none => exact .pure fun x hx => by cases hx
    | some d =>
      refine .pure fun x hx => ?_
      have hinside := h.inside n hn d (child?_mem hinner)
      split at hx
      · cases hx
        exact ⟨hinside.1, hinside.2, by simp [hkind], by simp [Node.isComment, hkind]⟩
      · cases hx
  · refine .pure fun x hx => ?_
    split at hx
    · rename_i htest
      cases hx
      rw [Bool.and_eq_true, isDefinition, Bool.or_eq_true, beq_iff_eq, beq_iff_eq] at htest
      refine ⟨Nat.le_refl _, Nat.le_refl _, ?_, ?_⟩
      · rcases htest.1 with hkind | hkind <;> simp [hkind]
      · rcases htest.1 with hkind | hkind <;> simp [Node.isComment, hkind]
    · cases hx

/-- A string literal is an expression. -/
theorem isDocstring_eq_false (h : n.kind ≠ "expression_statement") : isDocstring n = false := by
  simp [isDocstring, soleExpression?, h]

/-- The slot of a member lies in the member, which is no string literal and no comment. -/
theorem member_in (h : WellFormed t) {owner : String} (hn : n ∈ t.root.preorder) :
    Returns (member t owner n) fun found => ∀ x ∈ found, x.1.slot.In n ∧ isDocstring n = false ∧
      n.isComment = false := by
  refine (unwrap_inside h hn).bind fun found hfound => ?_
  -- overloads and accessors are no members, and neither is what is no definition
  cases found with
  | none => exact .pure fun x hx => by cases hx
  | some d =>
    obtain ⟨⟨hd, hdefinition⟩, hstart, hstop, hkind, hcomment⟩ := hfound d rfl
    dsimp only
    split
    · exact .pure fun x hx => by cases hx
    · split
      · exact .pure fun x hx => by cases hx
      · refine (Returns.of_any _).bind fun name _ => ?_
        refine ((docstringSlot_in h hd hdefinition).bind fun slot hslot => .pure hslot.1).bind
          (P := fun decl : Declaration => decl.slot.In d.1) fun decl hdecl => .pure ?_
        rintro x ⟨⟩
        exact ⟨hdecl.mono hstart hstop, isDocstring_eq_false hkind, hcomment⟩

/-- **The slots of a class and its members** come one after another, and lie in the class. -/
theorem slots_class (h : WellFormed t) {outer cls : Node} (hcls : cls ∈ t.root.preorder)
    (hdefinition : isDefinition cls = true) :
    Returns (classDeclarations t outer cls) fun found =>
      found.Pairwise (fun x y => x.1.slot.Before y.1.slot) ∧ ∀ x ∈ found, x.1.slot.In cls := by
  refine (Returns.of_any _).bind fun owner _ => ?_
  refine ((docstringSlot_in h hcls hdefinition).bind fun slot hslot => .pure hslot).bind
    (P := fun decl : Declaration => decl.slot.In cls ∧ ∀ block ∈ cls.child? "body",
      ∀ m ∈ statements block, isDocstring m = false → decl.slot.stop ≤ m.start)
    fun decl ⟨hdecl, hmembers⟩ => ?_
  cases hbody : cls.child? "body" with
  | none => exact .pure ⟨List.pairwise_singleton _ _, fun x hx => List.mem_singleton.mp hx ▸ hdecl⟩
  | some block =>
    have hblock_mem : block ∈ cls.children := child?_mem hbody
    have hblock : block ∈ t.root.preorder := preorder_child hcls hblock_mem
    have hblock_in := h.inside cls hcls block hblock_mem
    have hpair : block.namedChildren.Pairwise fun a b => a.stop ≤ b.start :=
      (pairwise_of_spaced (SourceTree.spaced_children h.spaced hblock)).sublist List.filter_sublist
    -- each member has its slot inside, and the members are in order
    have hfound : Returns (block.namedChildren.filterMapM (member t owner)) fun found =>
        found.Pairwise (fun x y => x.1.slot.Before y.1.slot) ∧
          ∀ x ∈ found, ∃ m ∈ block.namedChildren, x.1.slot.In m ∧ isDocstring m = false ∧
            m.isComment = false := by
      refine .filterMapM_pairwise (fun m hm => member_in h ?_) hpair fun a b x y hab hx hy => ?_
      · exact preorder_child hblock (List.mem_filter.mp hm).1
      · have hxa := hx.1
        have hyb := hy.1
        exact ⟨Nat.lt_of_lt_of_le hxa.start_lt (Nat.le_trans hab (Nat.le_of_lt hyb.after)),
          Nat.le_trans hxa.stop_le (Nat.le_trans hab (Nat.le_of_lt hyb.after))⟩
    refine hfound.bind fun found ⟨hbefore, hin⟩ => .pure ⟨?_, fun x hx => ?_⟩
    · refine List.pairwise_cons.mpr ⟨fun y hy => ?_, List.pairwise_map.mpr hbefore⟩
      obtain ⟨x, hx, rfl⟩ := List.mem_map.mp hy
      obtain ⟨m, hm, hslot, hliteral, hcomment⟩ := hin x hx
      have hstop : decl.slot.stop ≤ m.start :=
        hmembers block hbody m (List.mem_filter.mpr ⟨hm, by simp [hcomment]⟩) hliteral
      have hordered := hdecl.ordered
      have hafter := hslot.after
      exact ⟨by dsimp only; omega, by dsimp only; omega⟩
    · rcases List.mem_cons.mp hx with rfl | hx
      · exact hdecl
      · obtain ⟨y, hy, rfl⟩ := List.mem_map.mp hx
        obtain ⟨m, hm, hslot, -, -⟩ := hin y hy
        have hm_in := h.inside block hblock m (List.mem_filter.mp hm).1
        exact hslot.mono (by omega) (by omega)

/-! ### The top level -/

/-- The slot of a declaration at a statement ends with the statement or earlier, and begins behind the
    constructs before it. -/
structure Housed (before : List Node) (n : Node) (s : DocSlot) : Prop where
  construct : n.isComment = false
  start_lt : s.start < n.stop
  stop_le : s.stop ≤ n.stop
  after : ∀ x ∈ before, x.named = true → x.isComment = false → x.stop ≤ s.start

/-- A slot in a statement is behind what is before the statement. -/
theorem housed_of_in (h : WellFormed t) (hmem : (before, n) ∈ withBefore [] t.root.children)
    (hcomment : n.isComment = false) {s : DocSlot} (hs : s.In n) : Housed before n s where
  construct := hcomment
  start_lt := hs.start_lt
  stop_le := hs.stop_le
  after x hx _ _ := Nat.le_trans ((h.aligned.earlier hmem).1 x hx) (Nat.le_of_lt hs.after)

/-- The slot of a value is before it, and behind the construct before. -/
theorem values_housed (h : WellFormed t) (hmem : (before, n) ∈ withBefore [] t.root.children)
    (hkind : n.kind = "expression_statement") :
    Returns (values t before n) fun ds =>
      ds.Pairwise (fun d e => d.slot.Before e.slot) ∧ ∀ d ∈ ds, Housed before n d.slot := by
  have hn := h.solid n (mem_of_withBefore hmem)
  have hcomment : n.isComment = false := by simp [Node.isComment, hkind]
  refine (Returns.of_any _).bind fun texts _ => ?_
  -- only a value with a name it can be told by is declared
  split
  · exact .pure ⟨.nil, fun d hd => by cases hd⟩
  · refine .pure ⟨List.pairwise_singleton _ _, fun d hd => ?_⟩
    rw [List.mem_singleton.mp hd]
    dsimp only
    -- a value that begins its line is told above it, another one behind what stands before it
    split
    · rename_i hstarts
      obtain ⟨hordered, hstop, hafter⟩ := lineSlot_spec h.aligned hmem hstarts
      obtain ⟨-, -, -, hrun⟩ := leadingComments_spec h.aligned hmem
      exact ⟨hcomment, by omega, by omega, fun x hx hnamed hx' =>
        hafter x hx (hrun x hx hnamed hx')⟩
    · obtain ⟨hordered, hstop, hafter⟩ := inlineSlot_spec h.aligned hmem
        (asciiText (t.code.lineIndent n.start))
      exact ⟨hcomment, by omega, by omega, fun x hx _ _ => hafter x hx⟩

/-- **The slots at one statement** come one after another, and lie between what is before the statement
    and its end. -/
theorem topLevel_apart (h : WellFormed t) (hmem : (before, n) ∈ withBefore [] t.root.children) :
    Returns (topLevel t before n) fun found =>
      found.Pairwise (fun x y => x.1.slot.Before y.1.slot) ∧
        ∀ x ∈ found, Housed before n x.1.slot := by
  have hn : n ∈ t.root.preorder :=
    preorder_child (mem_preorder.mpr (.inl rfl)) (mem_of_withBefore hmem)
  unfold topLevel
  split
  · rename_i hkind
    refine (values_housed h hmem (by simpa using hkind)).bind fun ds ⟨hpair, hds⟩ => .pure ⟨?_, ?_⟩
    · exact List.pairwise_map.mpr hpair
    · intro x hx
      obtain ⟨d, hd, rfl⟩ := List.mem_map.mp hx
      exact hds d hd
  · refine (unwrap_inside h hn).bind fun found hfound => ?_
    cases found with
    | none => exact .pure ⟨.nil, fun x hx => by cases hx⟩
    | some d =>
      obtain ⟨⟨hd, hdefinition⟩, hstart, hstop, -, hcomment⟩ := hfound d rfl
      dsimp only
      split
      · refine (Returns.of_any _).bind fun name _ => ?_
        refine ((docstringSlot_in h hd hdefinition).bind fun slot hslot => .pure hslot.1).bind
          (P := fun decl : Declaration => decl.slot.In d.1) fun decl hdecl => .pure ?_
        refine ⟨List.pairwise_singleton _ _, fun x hx => ?_⟩
        rw [List.mem_singleton.mp hx]
        exact housed_of_in h hmem hcomment (hdecl.mono hstart hstop)
      · intro found hfound
        obtain ⟨hpair, hin⟩ := slots_class h hd hdefinition found hfound
        exact ⟨hpair, fun x hx => housed_of_in h hmem hcomment ((hin x hx).mono hstart hstop)⟩

/-- Of some declarations, those that stay are in their order. -/
theorem lastOfEach_sublist (ds : List Declaration) : (lastOfEach ds).Sublist ds := by
  induction ds with
  | nil => exact .slnil
  | cons d rest ih =>
    unfold lastOfEach
    split
    · exact ih.cons d
    · exact ih.cons_cons d

/-- **The slots of the declarations of a source come one after another.** -/
theorem declarations_apart (h : WellFormed t) :
    Returns (declarations t) fun ds => ds.Pairwise fun d e => d.slot.Before e.slot := by
  have hpair : ((withBefore [] t.root.children).filter fun x => x.2.named).Pairwise
      fun x y => x.2.named = true ∧ x.2 ∈ y.1 := by
    refine List.Pairwise.imp_of_mem ?_ ((pairwise_withBefore [] t.root.children).sublist
      List.filter_sublist)
    exact fun hx _ hbefore => ⟨(List.mem_filter.mp hx).2, hbefore⟩
  have hfound : Returns (definitions t) fun found =>
      found.Pairwise fun x y => x.1.slot.Before y.1.slot := by
    refine (Returns.mapM_pairwise (R := fun xs ys => ∀ x ∈ xs, ∀ y ∈ ys, x.1.slot.Before y.1.slot)
      (fun x hx => topLevel_apart h (List.mem_filter.mp hx).1) hpair ?_).bind
        fun found hfound => .pure ?_
    · -- what is declared at one statement comes before what is declared at a later one
      intro a b xs ys hearlier hxs hys x hx y hy
      have hx' := hxs.2 x hx
      have hafter := (hys.2 y hy).after a.2 hearlier.2 hearlier.1 hx'.construct
      exact ⟨Nat.lt_of_lt_of_le hx'.start_lt hafter, Nat.le_trans hx'.stop_le hafter⟩
    · obtain ⟨hacross, hwithin⟩ := hfound
      rw [List.pairwise_flatten]
      refine ⟨fun xs hxs => ?_, hacross⟩
      obtain ⟨a, -, hpair, -⟩ := hwithin xs hxs
      exact hpair
  refine hfound.map fun found hpair => ?_
  have hall : (found.map (·.1)).Pairwise fun d e => d.slot.Before e.slot :=
    List.pairwise_map.mpr hpair
  exact hall.sublist (lastOfEach_sublist _)

/-! ### Comments -/

/-- **The slots of declarations never collide.**  Any two declarations of a source have slots under
    different keys that do not overlap.  So of any comments on a new patch no edit of the source is
    dropped, and each text that was accepted is written into it, unless a later one took its place. -/
theorem slots_never_collide (h : WellFormed t) (hclean : t.edits.entries = []) {ds : List Declaration}
    (hds : declarations t = .ok ds) :
    (ds.Pairwise fun d e => d.slot.key ≠ e.slot.key ∧
      (d.slot.stop ≤ e.slot.start ∨ e.slot.stop ≤ d.slot.start)) ∧
    ∀ (folder : Folder) (languages : Languages) (override : Bool) (calls : List Remark) (file : String)
      (parse : Bytes → Except Failure SourceTree),
      let fresh : Patch := { folder := folder, languages := languages, override := override }
      let f₀ : PatchFile :=
        { language := { Language.python with parse := parse }, tree := t, declarations := ds }
      (∀ c ∈ calls, c.file = file → fresh.load c.disk file = .ok f₀) → file ∈ calls.map (·.file) →
      ∃ f, (fresh.after calls).file? file = some f ∧
        keptFrom 0 f.tree.edits.ordered = f.tree.edits.ordered ∧
        ∀ earlier c later, calls = earlier ++ c :: later → c.file = file →
          ((fresh.after earlier).remark c).1 = .ok () →
          (fresh.after earlier).Written f₀ c later f.tree.render := by
  -- all slots are in order and apart, which is all the second part asks of the tree
  have hapart : ds.Pairwise fun d e => d.slot.Before e.slot := declarations_apart h ds hds
  refine ⟨hapart.imp ?_, ?_⟩
  · intro d e hbefore
    refine ⟨fun hkey => ?_, .inl hbefore.stop_le⟩
    have hstart := hbefore.start_lt
    rw [DocSlot.key_inj.mp hkey] at hstart
    exact Nat.lt_irrefl _ hstart
  intro folder languages override calls file parse fresh f₀ hload hcall
  have hready : fresh.Ready file f₀ calls := Patch.ready_fresh rfl hload hclean
  obtain ⟨f, hf, hdrawn⟩ := hready.file? hcall
  refine ⟨f, hf, hdrawn.kept hapart, ?_⟩
  rintro earlier c later rfl rfl haccepted
  -- the calls after `earlier` start from a patch that is ready for the file as the fresh one is
  have hthen : (fresh.after earlier).Ready c.file f₀ (c :: later) := hready.after
  exact hthen.written hapart haccepted (by rw [← Patch.after_append]; exact hf)

/-- A class with a literal and a method, two values on one line with a comment above, and a function: all
    of them are documented, one by a blank text that another one replaces. -/
theorem slots_never_collide_in_a_file :
    let disk : FileTree := [.file "a.py" (Text.encode
      "class C:\n    ''\n    def f(self): pass\n# Note.\nX = 1; Y = 2\ndef g():\n    pass\n")]
    let calls : List Remark := [⟨disk, "a.py", "type:C", "Hold all."⟩, ⟨disk, "a.py", "func:C.f", ""⟩,
      ⟨disk, "a.py", "func:g", "Give one."⟩, ⟨disk, "a.py", "const:Y", "Two."⟩,
      ⟨disk, "a.py", "func:C.f", "Give none."⟩]
    let fresh : Patch := { folder := {} }
    ∃ f₀ f, fresh.load disk "a.py" = .ok f₀ ∧ WellFormed f₀.tree ∧ f₀.declarations.length = 5 ∧
      (fresh.accepted calls).length = 5 ∧ (fresh.after calls).file? "a.py" = some f ∧
      f.tree.edits.entries.length = 4 ∧ keptFrom 0 f.tree.edits.ordered = f.tree.edits.ordered := by
  intro disk calls fresh
  have hall : (fresh.load disk "a.py").toOption.any (fun f => f.language.name == "python" &&
      f.tree.edits.entries.isEmpty && decide (WellFormed f.tree) && f.declarations.length == 5) = true := by
    decide +kernel
  obtain ⟨f₀, hload, hf₀⟩ := exists_of_any hall
  simp only [Bool.and_eq_true, decide_eq_true_eq, beq_iff_eq, List.isEmpty_iff] at hf₀
  obtain ⟨⟨⟨hname, hclean⟩, hwell⟩, hlength⟩ := hf₀
  -- the file is a Python source
  obtain ⟨hlanguage, hds, hf₀⟩ := fresh.declared_load disk "a.py" f₀ hload
  have hpython : f₀.language = Language.python := by
    rcases Patch.forFile?_default hlanguage with hgo | hpython
    · rw [hgo] at hname
      exact absurd hname (by decide)
    · exact hpython
  rw [hpython] at hds hf₀
  have hread : ∀ c ∈ calls, c.file = "a.py" → fresh.load c.disk "a.py" = .ok
      { language := { Language.python with parse := Language.python.parse }, tree := f₀.tree,
        declarations := f₀.declarations } := by
    intro c hc _
    have hdisk : c.disk = disk := by
      simp only [calls, List.mem_cons, List.not_mem_nil, or_false] at hc
      rcases hc with rfl | rfl | rfl | rfl | rfl <;> rfl
    rw [hdisk, hload, hf₀]
  obtain ⟨f, hf, hkept, -⟩ := (slots_never_collide hwell hclean hds).2 {} Languages.default false calls
    "a.py" Language.python.parse hread (by decide)
  have hedits : ((fresh.after calls).file? "a.py").any (fun f => f.tree.edits.entries.length == 4) = true := by
    decide +kernel
  have hfile : (fresh.after calls).file? "a.py" = some f := hf
  rw [hfile] at hedits
  exact ⟨f₀, f, hload, hwell, hlength, by decide +kernel, hfile, by simpa using hedits, hkept⟩

/-- With leave to override, the second text for a function takes the place of the first one, which cannot
    be read in the source any more. -/
theorem second_text_replaces_first :
    let disk : FileTree := [.file "a.py" (Text.encode "def f():\n    pass\n")]
    let c : Remark := ⟨disk, "a.py", "func:f", "Give one."⟩
    let c' : Remark := ⟨disk, "a.py", "func:f", "Give more."⟩
    let p : Patch := { folder := {}, override := true }
    ∃ f₀ f d, p.load disk "a.py" = .ok f₀ ∧ WellFormed f₀.tree ∧ p.accepted [c, c'] = [c, c'] ∧
      (p.after [c, c']).file? "a.py" = some f ∧ resolve? f₀.declarations c.identifier = some d ∧
      ¬ renderDoc d.slot c.text <:+: f.tree.render := by
  intro disk c c' p
  have hload : (p.load disk "a.py").toOption.any (fun f₀ => decide (WellFormed f₀.tree) &&
      (resolve? f₀.declarations c.identifier).any fun d =>
        ((p.after [c, c']).file? "a.py").any fun f =>
          !decide (renderDoc d.slot c.text <:+: f.tree.render)) = true := by decide +kernel
  obtain ⟨f₀, hf₀, htest⟩ := exists_of_any hload
  obtain ⟨hwell, hresolve⟩ := Bool.and_eq_true_iff.mp htest
  obtain ⟨d, hd, hfile⟩ := (Option.any_eq_true _ _).mp hresolve
  obtain ⟨f, hf, hlost⟩ := (Option.any_eq_true _ _).mp hfile
  have hfirst : (p.remark c).1.toOption = some () := by decide +kernel
  have hsecond : ((p.remark c).2.remark c').1.toOption = some () := by decide +kernel
  refine ⟨f₀, f, d, hf₀, of_decide_eq_true hwell, ?_, hf, hd, by simpa using hlost⟩
  rw [Patch.accepted_of_ok (eq_ok_of_toOption hfirst), Patch.accepted_of_ok (eq_ok_of_toOption hsecond)]
  rfl

end Python

end Docsmith
