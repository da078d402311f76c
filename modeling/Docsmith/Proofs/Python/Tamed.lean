import Docsmith.Proofs.Python.Apart
import Docsmith.Proofs.Python.Dark

namespace Docsmith.Python

/-!
# Steps add no words to Python sources

A step of minification deletes code, or puts a word in the place of statements, which begin with ink.  It makes many
such edits at once, and reads the source anew between two halves.

* `Clears`: what takes the place of the documentation in a slot adds no words.
* `definitions_clear`: so it is for all declarations of a source.
* `bodyRange?_tame`, `clearModuleDoc_revised`: the other edits add none either.
* `stripBodies_tamed`, `stripComments_tamed`, `strip_tamed`: a step adds no words.
-/

open Grammar SourceTree

variable {t t₀ : SourceTree} {n block first : Node} {others : List Node} {s : DocSlot}

/-! ### Slots -/

/-- What takes the place of the documentation in a slot adds no words. -/
structure Clears (code : Bytes) (s : DocSlot) : Prop where
  literal : ∀ text ∈ s.clear, s.style = .docstring ∧ Edit.Tame code ⟨s.start, s.stop, text⟩
  comments : s.clear = none → s.hasDoc = true →
    s.style = .line ∧ s.inline = false ∧ Edit.Cuts code ⟨s.start, s.stop, []⟩

/-- What documentation that is cleared is rendered as adds no words. -/
theorem Clears.renderDoc {code : Bytes} (h : Clears code s) (hclear : (s.clear.isNone && !s.hasDoc) = false) :
    Edit.Tame code ⟨s.start, s.stop, Python.renderDoc s ""⟩ := by
  cases htext : s.clear with
  | some text =>
    obtain ⟨hstyle, htame⟩ := h.literal text htext
    have hrender : Python.renderDoc s "" = text := by
      simp only [Python.renderDoc, hstyle, htext]
      rfl
    rwa [hrender]
  | none =>
    rw [htext] at hclear
    obtain ⟨hstyle, hinline, hcuts⟩ := h.comments htext (by simpa using hclear)
    have hrender : Python.renderDoc s "" = [] := by
      simp only [Python.renderDoc, hstyle, DocSlot.renderLine, hinline]
      rfl
    rw [hrender]
    exact .inl hcuts

/-- A slot in which no documentation is known to be. -/
theorem clears_of_none {code : Bytes} (hclear : s.clear = none) (hdoc : s.hasDoc = false) : Clears code s where
  literal text h := by
    rw [hclear] at h
    cases h
  comments _ h := by
    rw [hdoc] at h
    cases h

/-- The slots for line comments. -/
theorem lineSlots_clear (h : t.Firm) : LineSlots t (Clears t.code) where
  line parent hparent before n hmem := by
    have hcut := h.lineSlots_cut.line parent hparent before n hmem
    have hslot : (lineSlot t.code before n).clear = none ∧ (lineSlot t.code before n).style = .line ∧
        (lineSlot t.code before n).inline = false := by
      unfold lineSlot
      split <;> exact ⟨rfl, rfl, rfl⟩
    refine ⟨fun text htext => ?_, fun _ hdoc => ⟨hslot.2.1, hslot.2.2, hcut hdoc⟩⟩
    rw [hslot.1] at htext
    cases htext
  inline _ _ _ _ _ _ := clears_of_none rfl rfl

/-- What follows the first statement of a block begins behind it. -/
theorem next_le (h : t.Firm) (hblock : block ∈ t.root.preorder) (hfirst : statements block = first :: others)
    {next : Node} (hnext : next ∈ afterFirst? block first) :
    first ∈ t.root.preorder ∧ next ∈ t.root.preorder ∧ first.stop ≤ next.start := by
  obtain ⟨comments, rest, hsplit, hafter, -⟩ := statements_split hfirst
  rw [hafter] at hnext
  have hrest : next ∈ rest := List.mem_of_mem_head? hnext
  have hpart (m : Node) (hm : m ∈ comments ++ first :: rest) : m ∈ t.root.preorder :=
    preorder_child hblock (List.mem_filter.mp (hsplit ▸ hm : m ∈ block.namedChildren)).1
  have hordered : block.namedChildren.Pairwise fun a b => a.stop ≤ b.start :=
    (h.ordered hblock).filter _
  rw [hsplit] at hordered
  refine ⟨hpart first (by simp), hpart next (by simp [hrest]), ?_⟩
  exact List.rel_of_pairwise_cons (List.pairwise_append.mp hordered).2.1 hrest

/-- The slot of a body that begins with a string literal: nothing takes the place of the literal, or one word. -/
theorem literalSlot_clears (h : Orderly t) (hblock : block ∈ t.root.preorder)
    (hfirst : statements block = first :: others) (hinky : Inky t.code first) (indent : String) (inline : Bool) :
    Returns (literalSlot t indent inline block first) (Clears t.code) := by
  have hmem : first ∈ t.root.preorder :=
    preorder_child hblock (mem_of_mem_statements (hfirst ▸ List.mem_cons_self))
  have hends := (h.parts first hmem).ends
  -- clearing leaves either nothing or the word `pass`, which stands where the literal's first ink stood
  have hpass : ∀ x ∈ Text.encode "pass", isGraph x = true := List.all_eq_true.mp (by decide +kernel)
  have hword : Edit.Tame t.code ⟨first.start, first.stop, Text.encode "pass"⟩ :=
    Edit.tame_word hinky.size hinky.dark hends hpass
  have hclears {s : DocSlot} {text : Bytes} (hstyle : s.style = .docstring) (hclear : s.clear = some text)
      (htame : Edit.Tame t.code ⟨s.start, s.stop, text⟩) : Clears t.code s := by
    refine ⟨fun text' htext => ?_, fun hnone => ?_⟩
    · rw [hclear] at htext
      cases htext
      exact ⟨hstyle, htame⟩
    · rw [hclear] at hnone
      cases hnone
  intro s hs
  obtain ⟨hstyle, hstart, hlayout⟩ := literalSlot_spec t indent inline block first s hs
  -- up to the next statement, or to the literal's own end: there the word is always put
  rcases hlayout with ⟨next, hnext, -, hstop, hclear⟩ | ⟨-, hstop, hclear⟩
  · obtain ⟨-, hmem', hle⟩ := next_le h.toFirm hblock hfirst hnext
    have hends' := (h.parts next hmem').ends
    apply hclears hstyle hclear
    rw [hstart, hstop]
    split
    · exact .inl ⟨_, _, Nat.le_trans (Nat.le_of_lt hinky.size) hle, hends.1, hends'.1, rfl⟩
    · exact .inr ⟨_, _, _, _, ⟨hinky.size, hle⟩, hinky.dark, ⟨hends.1, hends.2, hends'.1⟩, hpass, rfl⟩
  · apply hclears hstyle hclear
    rw [hstart, hstop]
    exact hword

/-- The slot of a definition. -/
theorem docstringSlot_clears (h : Orderly t) (hn : n ∈ t.root.preorder) (hdefinition : isDefinition n = true) :
    Returns (docstringSlot t n) (Clears t.code) := by
  unfold docstringSlot
  dsimp only
  split
  · rename_i colon block first others hcolon hblock hfirst
    rw [hblock] at hfirst
    have hfirst : statements block = first :: others := hfirst
    have hbody := child?_mem hblock
    have hinky := h.statements n hn hdefinition block hblock first (hfirst ▸ List.mem_cons_self)
    split
    · exact literalSlot_clears h (preorder_child hn hbody) hfirst hinky _ _
    · split
      · exact .pure (clears_of_none rfl rfl)
      · exact .pure (clears_of_none rfl rfl)
  · exact .error _ _

/-- **What takes the place of documentation adds no words**, whatever it documents. -/
theorem definitions_clear (h : Orderly t) :
    Returns (definitions t) fun found => ∀ x ∈ found, Stems (Clears t.code) t x :=
  slots_definitions (fun _ hn hdefinition => docstringSlot_clears h hn hdefinition) (lineSlots_clear h.toFirm)

/-- Where the documentation of a definition lives is told by the source. -/
theorem docstringSlot_same (h : Same t₀ t) (n : Node) : docstringSlot t n = docstringSlot t₀ n := by
  obtain ⟨code, root, edits⟩ := t₀
  obtain ⟨code', root', edits'⟩ := t
  have hcode : code' = code := h.code
  have hroot : root' = root := h.root
  subst hcode hroot
  rfl

/-! ### Bodies and the module -/

/-- Three dots take the place of a body from one of its statements on. -/
theorem bodyRange?_tame (h : Orderly t) (hn : n ∈ t.root.preorder) (hdefinition : isDefinition n = true)
    {key a b : Nat} (hrange : bodyRange? n = some (key, a, b)) : Edit.Tame t.code ⟨a, b, Text.encode "..."⟩ := by
  unfold bodyRange? at hrange
  split at hrange
  · cases hrange
  · rename_i block hblock
    have hbody := preorder_child hn (child?_mem hblock)
    have htame (stmt : Node) (hstmt : stmt ∈ statements block) :
        Edit.Tame t.code ⟨stmt.start, block.stop, Text.encode "..."⟩ := by
      have hpart := mem_of_mem_statements hstmt
      have hinky := h.statements n hn hdefinition block hblock stmt hstmt
      have hparts := h.parts block hbody
      obtain ⟨⟨-, -, hle⟩, hstart, -⟩ := hparts.parts.mem hpart
      have hword : ∀ x ∈ Text.encode "...", isGraph x = true := List.all_eq_true.mp (by decide +kernel)
      exact Edit.tame_word (Nat.lt_of_lt_of_le hinky.size hle) hinky.dark ⟨hstart, hparts.ends.2⟩ hword
    cases hstatements : statements block with
    | nil =>
      rw [hstatements] at hrange
      cases hrange
    | cons first others =>
      rw [hstatements] at hrange htame
      dsimp only at hrange
      -- the statements behind the documentation, if there is any
      have hrest : ∀ stmt ∈ if isDocstring first = true then others else first :: others,
          stmt ∈ first :: others := by
        split
        · exact fun stmt hstmt => List.mem_cons_of_mem first hstmt
        · exact fun stmt hstmt => hstmt
      generalize (if isDocstring first = true then others else first :: others) = rest at hrange hrest
      split at hrange
      · cases hrange
      · split at hrange
        · cases hrange
        · cases hrange
          exact htame _ (hrest _ List.mem_cons_self)
      · cases hrange
        exact htame _ (hrest _ List.mem_cons_self)

/-- The documentation of a module is deleted without cutting a character. -/
theorem clearModuleDoc_revised (h : t₀.Firm) (ht : Revised (Edit.Tame t₀.code) t₀ t) :
    Revised (Edit.Tame t₀.code) t₀ (clearModuleDoc t) := by
  unfold clearModuleDoc
  rw [ht.root, ht.code]
  cases hstatements : statements t₀.root with
  | nil => exact ht
  | cons doc others =>
    dsimp only
    split
    · refine ht.edit _ (.inl ?_)
      have hroot : t₀.root ∈ t₀.root.preorder := mem_preorder.mpr (.inl rfl)
      have hmem : doc ∈ t₀.root.preorder :=
        preorder_child hroot (mem_of_mem_statements (hstatements ▸ List.mem_cons_self))
      obtain ⟨hsize, hstop⟩ := h.node hmem
      have hends := (h.parts doc hmem).ends
      -- the whole line goes, or everything up to the next statement: both ends stand between characters
      split
      · rename_i next hnext
        obtain ⟨-, hmem', hle⟩ := next_le h hroot hstatements hnext
        exact ⟨_, _, Nat.le_trans hsize hle, hends.1, (h.parts next hmem').ends.1, rfl⟩
      · have hend := Bytes.le_lineEnd hstop
        exact ⟨_, _, by omega, hends.1, Bytes.whole_lineEnd _ _, rfl⟩
    · exact ht

/-! ### Steps -/

/-- Tame edits add no words, and reading the result gives an orderly tree. -/
theorem reparse_tamed (h₀ : Orderly t₀) (h : Revised (Edit.Tame t₀.code) t₀ t) :
    Returns (t.reparse parseTree) fun t' => t₀.code.Tamed t'.code ∧ Orderly t' := fun t' ht' =>
  ⟨h.tamed parseTree_reads t' ht', reparse_keeps parseTree_orderly h₀ h₀.clean h.toSame t' ht'⟩

/-- Replacing bodies adds no words, and gives an orderly tree. -/
theorem stripBodies_tamed (h : Orderly t) (exported : Bool) :
    Returns (stripBodies t exported) fun t' => t.code.Tamed t'.code ∧ Orderly t' := by
  refine (definitions_clear h).bind fun found hfound => reparse_tamed h ?_
  refine List.foldlRecOn _ _ (Revised.refl h.clean) fun t' ht' x hx => ?_
  obtain ⟨d, n?⟩ := x
  cases n? with
  | none => exact ht'
  | some n =>
    obtain ⟨hn, hdefinition⟩ := (hfound _ hx).2 n rfl
    dsimp only
    split
    · exact ht'
    · split
      · rename_i key a b hrange
        exact ht'.edit _ (bodyRange?_tame h hn hdefinition hrange)
      · exact ht'

theorem clearHidden_tamed (h : Orderly t) :
    Returns (clearHidden t) fun t' => t.code.Tamed t'.code ∧ Orderly t' := by
  refine (definitions_clear h).bind fun found hfound => reparse_tamed h ?_
  refine List.foldlRecOn _ _ (Revised.refl h.clean) fun t' ht' x hx => ?_
  dsimp only
  split
  · exact ht'
  · rename_i hclear
    rw [Bool.or_eq_true, not_or, Bool.not_eq_true, Bool.not_eq_true] at hclear
    exact ht'.edit _ ((hfound x hx).1.renderDoc hclear.2)

theorem clearDocstrings_revised (h : Orderly t) :
    Returns (clearDocstrings t) (Revised (Edit.Tame t.code) t) := by
  refine .foldlM _ (fun t' ht' n hn => ?_) (.refl h.clean)
  obtain ⟨hmem, hkind⟩ := mem_findAll.mp hn
  rw [docstringSlot_same ht'.toSame]
  refine (docstringSlot_clears h hmem (by simpa [isDefinition] using hkind)).bind fun slot hslot => ?_
  split
  · rename_i text htext
    exact .pure (ht'.edit _ (hslot.literal text htext).2)
  · exact .pure ht'

/-- Deleting comments and replacing documentation adds no words. -/
theorem stripComments_tamed (h : Orderly t) (exported : Bool) :
    Returns (stripComments t exported) fun t' => t.code.Tamed t'.code ∧ Orderly t' := by
  cases exported with
  | false => exact clearHidden_tamed h
  | true =>
    -- the comments go first, and what is left is read anew
    have hcomments : Revised (Edit.Tame t.code) t t.dropComments :=
      (h.revised_dropComments h.clean).mono fun _ => .inl
    refine (reparse_tamed h hcomments).bind fun t₁ ⟨htamed, h₁⟩ => ?_
    refine (clearDocstrings_revised h₁).bind fun t₂ ht₂ => ?_
    exact fun t' ht' => (reparse_tamed h₁ (clearModuleDoc_revised h₁.toFirm ht₂) t' ht').imp_left htamed.trans

/-- **A step adds no words to a Python source.** -/
theorem strip_tamed (h : Orderly t) (step : MinifyStep) :
    Returns (strip t step) fun t' => t.code.Tamed t'.code ∧ Orderly t' := by
  rw [strip_eq]
  refine Returns.bind (P := fun t₁ => t.code.Tamed t₁.code ∧ Orderly t₁) ?_ fun t₁ ⟨hbodies, h₁⟩ => ?_
  · split
    · exact stripBodies_tamed h _
    · exact .pure ⟨.refl _, h⟩
  · split
    · exact fun t' ht' => (stripComments_tamed h₁ _ t' ht').imp_left hbodies.trans
    · exact .pure ⟨hbodies, h₁⟩

end Docsmith.Python
