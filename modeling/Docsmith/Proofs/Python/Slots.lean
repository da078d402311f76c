import Docsmith.Proofs.Doc.Slot
import Docsmith.Proofs.Python.Bodies

namespace Docsmith.Python

open Grammar Text

/-!
# Slots of Python declarations

The slot at the head of a body covers a string literal that says nothing, with the semicolon after it,
or else no code at all.

* `blankLiterals`: the string literals without text at the head of a body.
* `vacant_docstringSlot`: what the slot of a definition covers.
* `slots_definitions`: what the slots for line comments and those at the heads of bodies have in
  common, the slots of all declarations have.
* `vacant_declarations`: the slots of the declarations of a source cover no code but these literals,
  unless there is documentation in them.
-/

/-- The pieces of text in a statement that is a string literal. -/
def literalTexts (stmt : Node) : List Node :=
  ((soleExpression? stmt).map (·.namedChildren)).getD [] |>.filter (·.kind == "string_content")

/-- The statement is a string literal that says nothing. -/
def isBlankLiteral (t : SourceTree) (stmt : Node) : Bool :=
  isDocstring stmt && (literalTexts stmt).all fun c =>
    match t.textOf (some c) with
    | .ok text => isBlankText text
    | .error _ => false

/-- The string literal that says nothing at the head of a body, and a semicolon directly after it. -/
def blankHead (t : SourceTree) (block : Node) : List (Nat × Nat) :=
  match block.children.dropWhile fun c => !c.named || c.isComment with
  | [] => []
  | first :: rest =>
    if isBlankLiteral t first then
      (first.start, first.stop)
        :: ((rest.take 1).filter (·.kind == ";")).map fun c => (c.start, c.stop)
    else []

/-- The string literals that say nothing at the heads of the bodies of definitions. -/
def blankLiterals (t : SourceTree) : List (Nat × Nat) :=
  (t.root.preorder.filter isDefinition).flatMap fun n =>
    ((n.child? "body").map (blankHead t)).getD []

variable {t : SourceTree} {n block colon first : Node} {before between rest : List Node}

/-! ### The parts of a definition -/

/-- The last colon of a definition is that before its body. -/
theorem Headed.lastColon (h : Headed n.children before between colon block) :
    (n.children.filter (·.kind == ":")).getLast? = some colon := by
  have hbetween : between.filter (·.kind == ":") = [] := by
    rw [List.filter_eq_nil_iff]
    intro x hx
    rcases h.extras x hx with hextra | hmark
    · intro hkind
      rw [beq_iff_eq] at hkind
      simp [isExtra, Node.isComment, hkind] at hextra
    · intro hkind
      rw [beq_iff_eq] at hkind
      simp [isMark, hkind, markKind] at hmark
  rw [h.split]
  simp [hbetween, h.colon_kind, h.kind_eq]

/-- The body of a definition is found by its role. -/
theorem Headed.body? (h : Headed n.children before between colon block) :
    n.child? "body" = some block := by
  have hnone : (before ++ colon :: between).find? (·.role == "body") = none := by
    rw [List.find?_eq_none]
    intro x hx
    simpa using h.role_ne x hx
  rw [Node.child?, h.split, List.find?_append, hnone]
  simp [h.role_eq]

/-- A body that has a statement begins with it. -/
theorem Headed.children_eq (h : Headed n.children before between colon block)
    (hfirst : (statements block).head? = some first) :
    first.named = true ∧ first.isComment = false ∧ ∃ rest, block.children = first :: rest := by
  have hmem : first ∈ statements block := List.mem_of_head? hfirst
  obtain ⟨hnamed, hcomment⟩ := List.mem_filter.mp hmem
  refine ⟨(List.mem_filter.mp hnamed).2, by simpa using hcomment, ?_⟩
  obtain ⟨hhead, -⟩ := h.first first hfirst
  cases hchildren : block.children with
  | nil => rw [hchildren] at hhead; cases hhead
  | cons c rest =>
    rw [hchildren] at hhead
    cases hhead
    exact ⟨rest, rfl⟩

/-- A bare token in a body is a semicolon. -/
theorem Headed.kind_of_bare {root : Node} {code : Bytes}
    (h : Headed n.children before between colon block) (hparse : parse code = .ok root)
    (hblock : block ∈ root.preorder) {c : Node} (hc : c ∈ block.children) (hbare : c.named = false) :
    c.kind = ";" := by
  obtain ⟨hmark, hextra | hmark' | hpart⟩ := h.parts c hc
  · rw [named_of_parse hparse (preorder_child hblock hc) hextra] at hbare
    cases hbare
  · rw [hmark] at hmark'
    cases hmark'
  · simpa [isPart, hbare] using hpart

/-- What stands between the first statement of a body and the construct after it: nothing, or a
    semicolon. -/
theorem Headed.next_cases {root : Node} {code : Bytes}
    (h : Headed n.children before between colon block) (hparse : parse code = .ok root)
    (hblock : block ∈ root.preorder) (hchildren : block.children = first :: rest)
    {next : Node} (hnext : (rest.filter (·.named)).head? = some next) :
    (∃ more, rest = next :: more) ∨ ∃ c more, rest = c :: next :: more ∧ c.kind = ";" := by
  have hkind := fun c hc => h.kind_of_bare (c := c) hparse hblock (by rw [hchildren]; exact hc)
  have happart := h.apart
  cases rest with
  | nil => cases hnext
  | cons c rest =>
    by_cases hc : c.named = true
    · rw [List.filter_cons_of_pos hc] at hnext
      cases hnext
      exact .inl ⟨rest, rfl⟩
    · have hsemicolon := hkind c (by simp) (by simpa using hc)
      rw [List.filter_cons_of_neg hc] at hnext
      cases rest with
      | nil => cases hnext
      | cons d more =>
        by_cases hd : d.named = true
        · rw [List.filter_cons_of_pos hd] at hnext
          cases hnext
          exact .inr ⟨c, more, rfl, hsemicolon⟩
        · -- a second semicolon would be in a row with the first
          have hsemicolon' := hkind d (by simp) (by simpa using hd)
          rw [hchildren] at happart
          have hmarks : isMark c = false ∧ isMark d = false :=
            ⟨(h.parts c (by rw [hchildren]; simp)).1, (h.parts d (by rw [hchildren]; simp)).1⟩
          simp [semicolons, hsemicolon, hsemicolon', hmarks] at happart

/-! ### The slot of a definition -/

/-- The spans at the head of a body that begins with a literal that says nothing. -/
theorem blankHead_eq (hchildren : block.children = first :: rest) (hnamed : first.named = true)
    (hcomment : first.isComment = false) (hblank : isBlankLiteral t first = true) :
    blankHead t block = (first.start, first.stop)
      :: ((rest.take 1).filter (·.kind == ";")).map fun c => (c.start, c.stop) := by
  rw [blankHead, hchildren, List.dropWhile_cons_of_neg (by simp [hnamed, hcomment])]
  simp [hblank]

/-- The spans at the head of the body of a definition are among those of the source. -/
theorem mem_blankLiterals {x : Nat × Nat} (hn : n ∈ t.root.preorder) (hdefinition : isDefinition n = true)
    (hbody : n.child? "body" = some block) (hx : x ∈ blankHead t block) : x ∈ blankLiterals t := by
  refine List.mem_flatMap.mpr ⟨n, List.mem_filter.mpr ⟨hn, hdefinition⟩, ?_⟩
  rw [hbody]
  exact hx

/-- The construct after the first statement of a body. -/
theorem afterFirst?_eq (hchildren : block.children = first :: rest) (hnamed : first.named = true)
    (hcomment : first.isComment = false) :
    afterFirst? block first = (rest.filter (·.named)).head? := by
  have hsame : block.namedChildren = first :: rest.filter (·.named) := by
    rw [Node.namedChildren, hchildren, List.filter_cons_of_pos hnamed]
  rw [afterFirst?, hsame, List.dropWhile_cons_of_neg (by simp [hcomment])]
  rfl

/-- A literal of which every piece of text is blank says nothing. -/
theorem isBlankLiteral_of_texts (hdocstring : isDocstring first = true) :
    Returns ((literalTexts first).mapM fun c => t.textOf (some c)) fun texts =>
      texts.any (!isBlankText ·) = false → isBlankLiteral t first = true := by
  intro texts htexts hblank
  rw [isBlankLiteral, hdocstring, Bool.true_and, List.all_eq_true]
  intro c hc
  obtain ⟨text, hmem, htext⟩ := Returns.mapM_mem _ _ texts htexts c hc
  rw [htext]
  have := List.any_eq_false.mp hblank text hmem
  simpa using this

/-- The slot of a literal covers the literal, and a semicolon and white space after it. -/
theorem vacant_literalSlot {indent : String} {inline : Bool}
    (hparse : parse t.code = .ok t.root) (hspaced : t.spaced = true)
    (hn : n ∈ t.root.preorder) (hdefinition : isDefinition n = true)
    (h : Headed n.children before between colon block)
    (hfirst : (statements block).head? = some first) (hdocstring : isDocstring first = true) :
    Returns (literalSlot t indent inline block first) fun slot =>
      slot.Vacant (blankLiterals t) t.code := by
  obtain ⟨hnamed, hcomment, rest, hchildren⟩ := h.children_eq hfirst
  have hblock : block ∈ t.root.preorder := preorder_child hn (by rw [h.split]; simp)
  have hsiblings : t.code.spaced (first :: rest) = true := by
    rw [← hchildren]
    exact SourceTree.spaced_children hspaced hblock
  have hle := start_le_stop hsiblings
  unfold literalSlot
  refine (isBlankLiteral_of_texts hdocstring).bind fun texts htexts => ?_
  rw [afterFirst?_eq hchildren hnamed hcomment]
  have hmem : ∀ x ∈ blankHead t block, x ∈ blankLiterals t :=
    fun x hx => mem_blankLiterals hn hdefinition h.body? hx
  have hliteral : texts.any (!isBlankText ·) = false →
      t.code.Inkless (blankLiterals t) first.start first.stop := by
    intro hblank
    refine .of_mem hle (hmem _ ?_)
    rw [blankHead_eq hchildren hnamed hcomment (htexts hblank)]
    exact List.mem_cons_self
  -- the literal alone, or all up to the next construct on a later line
  have hnext : ∀ next, (rest.filter (·.named)).head? = some next → texts.any (!isBlankText ·) = false →
      t.code.Inkless (blankLiterals t) first.start next.start := by
    intro next hnext hblank
    refine (hliteral hblank).trans ?_
    rcases h.next_cases hparse hblock hchildren hnext with ⟨more, rfl⟩ | ⟨c, more, rfl, hkind⟩
    · exact inkless_gap hsiblings
    · have hspan : t.code.Inkless (blankLiterals t) c.start c.stop := by
        refine .of_mem (start_le_stop (spaced_tail hsiblings)) (hmem _ ?_)
        rw [blankHead_eq hchildren hnamed hcomment (htexts hblank)]
        simp [hkind]
      exact (inkless_gap hsiblings).trans (hspan.trans (inkless_gap (spaced_tail hsiblings)))
  cases hafter : (rest.filter (·.named)).head? with
  | none => exact (Returns.of_any _).bind fun follow _ => .pure hliteral
  | some next =>
    dsimp only
    split
    · exact (Returns.of_any _).bind fun follow _ => .pure (hnext next hafter)
    · exact (Returns.of_any _).bind fun follow _ => .pure hliteral

/-- **The slot of a definition covers no code** but a literal that says nothing. -/
theorem vacant_docstringSlot (hparse : parse t.code = .ok t.root) (hspaced : t.spaced = true)
    (hn : n ∈ t.root.preorder) (hdefinition : isDefinition n = true) :
    Returns (docstringSlot t n) fun slot => slot.Vacant (blankLiterals t) t.code := by
  obtain ⟨before, between, colon, block, h⟩ := headed_of_parse hparse hn hdefinition
  unfold docstringSlot
  rw [h.lastColon, h.body?]
  cases hstatements : statements block with
  | nil => simp only [Option.map_some, Option.getD_some, hstatements]; exact .error _ _
  | cons first others =>
    have hfirst : (statements block).head? = some first := by rw [hstatements]; rfl
    simp only [Option.map_some, Option.getD_some, hstatements]
    split
    · exact vacant_literalSlot hparse hspaced hn hdefinition h hfirst ‹_›
    · split
      · -- a statement on the row of the colon stands right after it
        rename_i hrow
        obtain ⟨-, hstart, hbetween⟩ := h.first first hfirst
        have hsiblings := SourceTree.spaced_children hspaced hn
        rw [h.split, hbetween (by simpa using hrow), List.append_assoc] at hsiblings
        refine .pure fun _ => ?_
        show t.code.Inkless _ colon.stop first.start
        rw [← hstart]
        exact inkless_gap (spaced_append hsiblings)
      · exact .pure (vacant_of_place rfl)

/-! ### The slots of a source -/

/-- A child in a role is a child. -/
theorem child?_mem {role : String} {c : Node} (h : n.child? role = some c) : c ∈ n.children :=
  List.mem_of_find?_eq_some h

/-- A definition that is no overload. -/
theorem unwrapped_mem {d : Node} (hd : d ∈ t.root.preorder) (decorators : List String) :
    Returns (pure (if isDefinition d && !decorators.contains "overload" then some (d, decorators)
      else none) : Except Failure (Option (Node × List String)))
      fun found => ∀ x ∈ found, x.1 ∈ t.root.preorder ∧ isDefinition x.1 = true := by
  refine .pure fun x hx => ?_
  split at hx
  · rename_i hdefinition
    cases hx
    rw [Bool.and_eq_true] at hdefinition
    exact ⟨hd, hdefinition.1⟩
  · cases hx

/-- The definition in a node is a definition of the tree. -/
theorem unwrap_mem (hn : n ∈ t.root.preorder) :
    Returns (unwrap t n) fun found => ∀ x ∈ found, x.1 ∈ t.root.preorder ∧ isDefinition x.1 = true := by
  unfold unwrap
  split
  · refine (Returns.of_any (decoratorNames t n)).bind fun decorators _ => ?_
    cases hinner : n.child? "definition" with
    | none => exact .pure fun x hx => by cases hx
    | some d => exact unwrapped_mem (preorder_child hn (child?_mem hinner)) decorators
  · exact unwrapped_mem hn []

/-- The slot of a declaration has a property, and its definition is one of the tree. -/
def Stems (P : DocSlot → Prop) (t : SourceTree) (x : Declaration × Option Node) : Prop :=
  P x.1.slot ∧ ∀ n ∈ x.2, n ∈ t.root.preorder ∧ isDefinition n = true

section Slots

variable {P : DocSlot → Prop}
  (hhead : ∀ n ∈ t.root.preorder, isDefinition n = true → Returns (docstringSlot t n) P)

include hhead

theorem slots_declaration {kind : DeclKind} {name owner : String} {outer : Node}
    (hn : n ∈ t.root.preorder) (hdefinition : isDefinition n = true) :
    Returns (declaration t kind name owner outer n) fun d => P d.slot :=
  (hhead n hn hdefinition).bind fun _ hslot => .pure hslot

theorem slots_member {owner : String} (hn : n ∈ t.root.preorder) :
    Returns (member t owner n) fun found => ∀ x ∈ found, Stems P t (x.1, some x.2) := by
  refine (unwrap_mem hn).bind fun found hfound => ?_
  cases found with
  | none => exact .pure fun x hx => by cases hx
  | some d =>
    obtain ⟨hd, hdefinition⟩ := hfound d rfl
    dsimp only
    split
    · exact .pure fun x hx => by cases hx
    · split
      · exact .pure fun x hx => by cases hx
      · refine (Returns.of_any _).bind fun name _ => ?_
        refine (slots_declaration hhead hd hdefinition).bind fun decl hdecl => .pure ?_
        intro x hx
        cases hx
        exact ⟨hdecl, fun m hm => by cases hm; exact ⟨hd, hdefinition⟩⟩

theorem slots_classDeclarations {outer cls : Node} (hcls : cls ∈ t.root.preorder)
    (hdefinition : isDefinition cls = true) :
    Returns (classDeclarations t outer cls) fun found => ∀ x ∈ found, Stems P t x := by
  refine (Returns.of_any _).bind fun owner _ => ?_
  refine (slots_declaration hhead hcls hdefinition).bind fun decl hdecl => ?_
  refine Returns.bind (P := fun found => ∀ x ∈ found, Stems P t (x.1, some x.2))
    (.filterMapM fun c hc => ?_) fun found hfound => .pure ?_
  -- the members are looked for in the body, whose parts all lie below the class
  · refine slots_member hhead ?_
    cases hbody : cls.child? "body" with
    | none => rw [hbody] at hc; cases hc
    | some body =>
      rw [hbody] at hc
      exact preorder_child (preorder_child hcls (child?_mem hbody)) (List.mem_filter.mp hc).1
  · intro x hx
    rcases List.mem_cons.mp hx with rfl | hx
    · exact ⟨hdecl, fun m hm => by cases hm; exact ⟨hcls, hdefinition⟩⟩
    · obtain ⟨y, hy, rfl⟩ := List.mem_map.mp hx
      exact hfound y hy

omit hhead in
theorem slots_values (h : LineSlots t P) (hmem : (before, n) ∈ withBefore [] t.root.children) :
    Returns (values t before n) (AllSlots P) := by
  have hroot : t.root ∈ t.root.preorder := mem_preorder.mpr (.inl rfl)
  refine (Returns.of_any _).bind fun texts _ => ?_
  split
  · exact .pure fun d hd => by cases hd
  · refine .pure (allSlots_singleton ?_)
    dsimp only
    split
    · exact h.line t.root hroot before n hmem
    · exact h.inline t.root hroot before n hmem _

theorem slots_topLevel (h : LineSlots t P) (hmem : (before, n) ∈ withBefore [] t.root.children) :
    Returns (topLevel t before n) fun found => ∀ x ∈ found, Stems P t x := by
  have hroot : t.root ∈ t.root.preorder := mem_preorder.mpr (.inl rfl)
  unfold topLevel
  -- values take the slot of their line; a definition takes that of its body, below what was unwrapped
  split
  · refine (slots_values h hmem).bind fun ds hds => .pure ?_
    intro x hx
    obtain ⟨d, hd, rfl⟩ := List.mem_map.mp hx
    exact ⟨hds d hd, fun m hm => by cases hm⟩
  · refine (unwrap_mem (preorder_child hroot (mem_of_withBefore hmem))).bind fun found hfound => ?_
    cases found with
    | none => exact .pure fun x hx => by cases hx
    | some d =>
      obtain ⟨hd, hdefinition⟩ := hfound d rfl
      dsimp only
      split
      · refine (Returns.of_any _).bind fun name _ => ?_
        refine (slots_declaration hhead hd hdefinition).bind fun decl hdecl => .pure ?_
        intro x hx
        rw [List.mem_singleton.mp hx]
        exact ⟨hdecl, fun m hm => by cases hm; exact ⟨hd, hdefinition⟩⟩
      · exact slots_classDeclarations hhead hd hdefinition

/-- **The slots of Python declarations are slots for line comments or at the heads of bodies.** -/
theorem slots_definitions (h : LineSlots t P) :
    Returns (definitions t) fun found => ∀ x ∈ found, Stems P t x := by
  refine Returns.bind (P := fun found => ∀ xs ∈ found, ∀ x ∈ xs, Stems P t x)
    (.mapM fun x hx => ?_) fun found hfound => .pure ?_
  · exact slots_topLevel hhead h (List.mem_filter.mp hx).1
  · intro x hx
    obtain ⟨xs, hxs, hx⟩ := List.mem_flatten.mp hx
    exact hfound xs hxs x hx

end Slots

/-- Of some declarations, those that stay are among them. -/
theorem lastOfEach_subset (ds : List Declaration) : lastOfEach ds ⊆ ds := by
  induction ds with
  | nil => exact fun d hd => hd
  | cons d rest ih =>
    unfold lastOfEach
    split
    · exact fun x hx => List.mem_cons_of_mem d (ih hx)
    · intro x hx
      rcases List.mem_cons.mp hx with rfl | hx
      · exact List.mem_cons_self
      · exact List.mem_cons_of_mem d (ih hx)

/-- **The slots of Python declarations cover no code** but literals that say nothing, unless there is
    documentation in them. -/
theorem vacant_declarations (hparse : parse t.code = .ok t.root) (hspaced : t.spaced = true) :
    Returns (declarations t) (AllVacant (blankLiterals t) t.code) := by
  have hhead : ∀ n ∈ t.root.preorder, isDefinition n = true →
      Returns (docstringSlot t n) fun slot => slot.Vacant (blankLiterals t) t.code :=
    fun n hn hdefinition => vacant_docstringSlot hparse hspaced hn hdefinition
  refine (slots_definitions hhead (lineSlots_vacant hspaced)).map fun found hfound => ?_
  intro d hd
  obtain ⟨x, hx, rfl⟩ := List.mem_map.mp (lastOfEach_subset _ hd)
  exact (hfound x hx).1

end Docsmith.Python
