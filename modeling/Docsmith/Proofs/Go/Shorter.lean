import Docsmith.Proofs.Go.Bare
import Docsmith.Proofs.Go.Regular
import Docsmith.Proofs.Keys
import Docsmith.Proofs.Source.Deletions

namespace Docsmith

open SourceTree

/-!
# Steps make Go sources shorter

A step of minification only deletes in a Go source.  So it makes the source shorter, or else it has
found nothing to take and leaves it as it is.

* `SourceTree.Trims`: the edits of a tree are deletions.
* `SourceTree.reparse_shorter`: reading such a tree anew gives a shorter source, unless there are no
  edits.
* `Go.Spares`: a step finds nothing to take in a source.
* `Go.strip_shorter`: a step that takes something makes the source shorter.
-/

namespace SourceTree

variable {parse : Bytes → Except Failure SourceTree} {t₀ t : SourceTree} {a b : Nat}

/-- The tree is another one with some deletions. -/
structure Trims (t₀ t : SourceTree) : Prop extends Same t₀ t where
  deletes : ∀ x ∈ t.edits.entries, x.2.Deletes t₀.code

theorem Trims.refl (h : t.edits.dirty = false) : Trims t t where
  toSame := .refl t
  deletes := by
    have hentries : t.edits.entries = [] := by simpa [EditSet.dirty] using h
    simp [hentries]

theorem Trims.edit (h : Trims t₀ t) (key : String) (hab : a < b) (hb : b ≤ t₀.code.length) :
    Trims t₀ (t.edit key a b []) where
  toSame := h.toSame.edit _ _ _ _
  deletes := by
    intro x hx
    rcases mem_put (EditSet.put key ⟨a, b, []⟩) rfl (EditSet.put_cons key _) hx with rfl | hx
    · exact ⟨a, b, hab, hb, rfl⟩
    · exact h.deletes x hx

/-- An edit waits after it is recorded. -/
theorem dirty_edit (t : SourceTree) (key : String) (start stop : Int) (text : Bytes) :
    (t.edit key start stop text).edits.dirty = true := by
  unfold SourceTree.edit EditSet.edit EditSet.dirty
  cases t.edits.entries with
  | nil => rfl
  | cons entry rest =>
    rw [EditSet.put]
    split <;> rfl

/-- **Deletions make a source shorter**, or else there are none. -/
theorem reparse_shorter (hparse : Reads parse) (h₀ : t₀.edits.dirty = false) (h : Trims t₀ t) :
    Returns (t.reparse parse) fun t' =>
      t'.code.length < t₀.code.length ∨ t' = t₀ ∧ t.edits.dirty = false := by
  unfold reparse
  split
  case isTrue hdirty =>
    intro t' ht'
    refine .inl ?_
    rw [(hparse _ t' ht').1, render, h.code]
    exact EditSet.render_shorter h.deletes hdirty
  case isFalse hdirty =>
    have hclean : t.edits.dirty = false := by simpa using hdirty
    exact .pure (.inr ⟨h.toSame.eq_of_clean h₀ hclean, hclean⟩)

/-- When no edit waits after a run through a list, none of its elements has added one. -/
theorem foldlM_clean {α : Type} {f : SourceTree → α → Except Failure SourceTree}
    (keeps : α → Prop) (xs : List α) (hf : ∀ t, Trims t₀ t → ∀ a ∈ xs, Returns (f t a) fun t' =>
      Trims t₀ t' ∧ (t'.edits.dirty = false → t.edits.dirty = false ∧ keeps a))
    (h : Trims t₀ t) : Returns (xs.foldlM f t) fun t' =>
      Trims t₀ t' ∧ (t'.edits.dirty = false → t.edits.dirty = false ∧ ∀ a ∈ xs, keeps a) := by
  -- an edit once made stays, so a clean end means that no step of the fold edited anything
  induction xs generalizing t with
  | nil => exact .pure ⟨h, fun hclean => ⟨hclean, fun a ha => by cases ha⟩⟩
  | cons a rest ih =>
    rw [List.foldlM_cons]
    refine (hf t h a List.mem_cons_self).bind fun t₁ ⟨h₁, hfirst⟩ => ?_
    have hrest := ih (fun t h a ha => hf t h a (List.mem_cons_of_mem _ ha)) h₁
    intro t' ht'
    obtain ⟨h', hlater⟩ := hrest t' ht'
    refine ⟨h', fun hclean => ?_⟩
    -- clean at the end gives clean in the middle, and from there both parts of the claim
    obtain ⟨hclean₁, hkeeps⟩ := hlater hclean
    obtain ⟨hclean₀, ha⟩ := hfirst hclean₁
    refine ⟨hclean₀, fun x hx => ?_⟩
    rcases List.mem_cons.mp hx with rfl | hx
    · exact ha
    · exact hkeeps x hx

/-- Comments that lie in the code and are not empty can be deleted. -/
theorem trims_dropComments (hclean : t.edits.dirty = false)
    (hcomments : ∀ n ∈ t.root.preorder, n.isComment = true →
      n.start < n.stop ∧ n.stop ≤ t.code.length) : Trims t t.dropComments := by
  refine List.foldlRecOn _ _ (Trims.refl hclean) fun t' ht' c hc => ?_
  obtain ⟨hpreorder, hkind⟩ := mem_findAll.mp hc
  obtain ⟨hsize, hstop⟩ := hcomments c hpreorder (by simpa [Node.isComment] using hkind)
  rw [← ht'.code] at hstop
  obtain ⟨a, b, hrange, hstart, hend, hb⟩ := Bytes.removalRange_spec (Nat.le_of_lt hsize) hstop
  dsimp only
  rw [hrange]
  exact ht'.edit _ (by omega) (by rwa [← ht'.code])

/-- When no edit waits after a run through a list in which each element adds one, it is empty. -/
theorem eq_nil_of_clean {α : Type} {f : SourceTree → α → SourceTree} {xs : List α}
    (hf : ∀ t a, (f t a).edits.dirty = true) (h : (xs.foldl f t).edits.dirty = false) :
    xs = [] := by
  cases xs with
  | nil => rfl
  | cons a rest =>
    have hdirty : (rest.foldl f (f t a)).edits.dirty = true :=
      List.foldlRecOn (motive := fun t => t.edits.dirty = true) rest f (hf t a)
        fun t' _ b _ => hf t' b
    rw [List.foldl_cons, hdirty] at h
    cases h

/-- When no edit waits after comments are deleted, there are none. -/
theorem uncommented_of_clean (h : t.dropComments.edits.dirty = false) : t.uncommented = true :=
  findAll_comment.mp (eq_nil_of_clean (fun t _ => dirty_edit t _ _ _ _) h)

end SourceTree

/-! ### Slots of documentation -/

/-- There is code to delete in the slot, if there is documentation in it. -/
def DocSlot.Wide (code : Bytes) (s : DocSlot) : Prop :=
  s.hasDoc = true → s.start < s.stop ∧ s.stop ≤ code.length

theorem SourceTree.lineSlots_wide {t : SourceTree} (h : t.Regular) : LineSlots t (DocSlot.Wide t.code) where
  line := by
    intro parent hparent before n hmem
    have haligned := h.aligned hparent
    obtain ⟨hrun, hpair, -⟩ := leadingComments_spec haligned hmem
    unfold lineSlot
    cases hcomments : leadingComments t.code before n with
    | nil => intro hdoc; cases hdoc
    | cons first rest =>
      -- from the line of the first comment to the end of that of the last
      intro _
      rw [hcomments] at hrun hpair
      have hmem' (c : Node) (hc : c ∈ first :: rest) : c ∈ parent.children :=
        mem_before hmem (hrun c hc).1
      have hsize := start_lt_last hpair fun c hc => haligned.solid c (hmem' c hc)
      have hlast : (first :: rest).getLastD first ∈ first :: rest := by
        rw [List.getLastD_cons]
        exact List.getLastD_mem_cons
      have hlineStart := Bytes.lineStart_le t.code first.start
      have hlineEnd := Bytes.le_lineEnd (haligned.bounded _ (hmem' _ hlast))
      exact ⟨by dsimp only; omega, Bytes.lineEnd_le _ _⟩
  inline := by
    intro parent hparent before n hmem indent hdoc
    cases hdoc

namespace Go

variable {t : SourceTree} {n : Node}

/-- The nodes of a fresh tree are those of its source. -/
theorem parse_of_fresh (h : Fresh parseTree t) : parse t.code = .ok t.root := by
  have hparsed := h.parsed
  unfold parseTree at hparsed
  split at hparsed
  case h_1 root hroot =>
    rw [hroot]
    exact congrArg Except.ok (congrArg SourceTree.root (Except.ok.inj hparsed))
  case h_2 => cases hparsed

/-- The comments of a source lie in it and are not empty. -/
theorem comment_lt (h : Fresh parseTree t) (hn : n ∈ t.root.preorder)
    (hcomment : n.isComment = true) : n.start < n.stop ∧ n.stop ≤ t.code.length := by
  rcases exists_parent hn with rfl | ⟨parent, hparent, hchild⟩
  · simp [Node.isComment, (placed_of_parse (parse_of_fresh h)).1] at hcomment
  · have haligned := (regular_of_parse h.parsed).aligned hparent
    exact ⟨haligned.solid n hchild, haligned.bounded n hchild⟩

/-- The stretch of a body that goes is not empty. -/
theorem bodyRange?_lt {code : Bytes} {a b : Nat} (h : Aligned code n.children)
    (hrange : bodyRange? n = some (a, b)) : a < b ∧ b ≤ code.length := by
  unfold bodyRange? at hrange
  split at hrange
  case h_1 prev others body hfound =>
    cases hrange
    -- the body comes after what is before it
    have hmem := List.mem_of_find?_eq_some hfound
    have hprev := (h.earlier hmem).1 prev List.mem_cons_self
    have hsize := h.solid body (mem_of_withBefore hmem)
    exact ⟨by omega, h.bounded body (mem_of_withBefore hmem)⟩
  case h_2 => cases hrange

/-- A step finds nothing to take in a source. -/
structure Spares (t : SourceTree) (step : MinifyStep) : Prop where
  bodies : step.bodies = true →
    ∀ n ∈ t.root.namedChildren, losesBody t step.exported n = .ok true → bodyRange? n = none
  comments : step.comments = true → step.exported = true → t.uncommented = true
  readable : step.comments = true → step.exported = false → ∃ ds, declarations t = .ok ds

/-- A source in which no usual step finds anything to take is bare. -/
theorem bare_of_spares (h : ∀ step ∈ MinifyStep.defaults, Spares t step) : Bare t where
  uncommented := (h ⟨"all-comments", false, true, true⟩ (by decide)).comments rfl rfl
  bodies := (h ⟨"exported-bodies", true, false, true⟩ (by decide)).bodies rfl
  readable := (h ⟨"unexported-comments", false, true, false⟩ (by decide)).readable rfl rfl

/-- Which functions lose their bodies is told by the source and its nodes. -/
theorem losesBody_same {t' : SourceTree} (h : Same t t') (exported : Bool) (n : Node) :
    losesBody t' exported n = losesBody t exported n := by
  obtain ⟨code, root, edits⟩ := t
  obtain ⟨code', root', edits'⟩ := t'
  have hcode : code' = code := h.code
  have hroot : root' = root := h.root
  subst hcode hroot
  rfl

theorem stripBodies_shorter (h : Fresh parseTree t) (exported : Bool) :
    Returns (stripBodies t exported) fun t' => t'.code.length < t.code.length ∨ t' = t ∧
      ∀ n ∈ t.root.namedChildren, losesBody t exported n = .ok true → bodyRange? n = none := by
  unfold stripBodies
  -- if no edit waits in the end, no node that was to lose its body had one
  refine (foldlM_clean (fun n => losesBody t exported n = .ok true → bodyRange? n = none) _
    (fun t' ht' n hn => ?_) (.refl h.clean)).bind fun t₁ ⟨h₁, hkeeps⟩ => ?_
  · have hmem := (List.mem_filter.mp hn).1
    have haligned := (regular_of_parse h.parsed).aligned (preorder_child (mem_preorder.mpr (.inl rfl)) hmem)
    rw [losesBody_same ht'.toSame]
    refine (Returns.self (losesBody t exported n)).bind fun loses hloses => ?_
    cases loses with
    | false =>
      refine .pure ⟨ht', fun hclean => ⟨hclean, fun hother => ?_⟩⟩
      cases hloses.symm.trans hother
    | true =>
      cases hrange : bodyRange? n with
      | none => exact .pure ⟨ht', fun hclean => ⟨hclean, fun _ => rfl⟩⟩
      | some range =>
        obtain ⟨hsize, hle⟩ := bodyRange?_lt haligned hrange
        refine .pure ⟨ht'.edit _ hsize hle, fun hclean => ?_⟩
        exact absurd ((dirty_edit t' _ _ _ _).symm.trans hclean) (by simp)
  · intro t' ht'
    refine (reparse_shorter parseTree_reads h.clean h₁ t' ht').imp_right fun ⟨heq, hclean⟩ => ?_
    exact ⟨heq, (hkeeps hclean).2⟩

theorem stripComments_shorter (h : Fresh parseTree t) (exported : Bool) :
    Returns (stripComments t exported) fun t' => t'.code.length < t.code.length ∨ t' = t ∧
      (exported = true → t.uncommented = true) ∧
      (exported = false → ∃ ds, declarations t = .ok ds) := by
  -- all comments go, or only those of hidden declarations: the two steps edit different places
  cases exported with
  | true =>
    have htrims := trims_dropComments h.clean fun n hn hcomment => comment_lt h hn hcomment
    intro t' ht'
    refine (reparse_shorter parseTree_reads h.clean htrims t' ht').imp_right fun ⟨heq, hclean⟩ => ?_
    exact ⟨heq, fun _ => uncommented_of_clean hclean, fun hfalse => by cases hfalse⟩
  | false =>
    refine (Returns.self (declarations t)).bind fun ds hds => ?_
    -- documentation that is cleared covers at least a byte, so the code gets shorter with the first edit
    have hwide : AllSlots (DocSlot.Wide t.code) ds :=
      slots_declarations (lineSlots_wide (regular_of_parse h.parsed)) ds hds
    have htrims : Trims t ((ds.filter fun d => !d.exported && d.slot.hasDoc).foldl
        (fun t d => t.edit d.slot.key d.slot.start d.slot.stop []) t) := by
      refine List.foldlRecOn _ _ (Trims.refl h.clean) fun t' ht' d hd => ?_
      obtain ⟨hmem, hhidden⟩ := List.mem_filter.mp hd
      obtain ⟨hsize, hle⟩ := hwide d hmem (by simp at hhidden; exact hhidden.2)
      exact ht'.edit _ hsize hle
    intro t' ht'
    refine (reparse_shorter parseTree_reads h.clean htrims t' ht').imp_right fun ⟨heq, _⟩ => ?_
    exact ⟨heq, fun htrue => (by cases htrue), fun _ => ⟨ds, hds⟩⟩

/-- **A step makes a Go source shorter**, or else it has found nothing to take. -/
theorem strip_shorter (h : Fresh parseTree t) (step : MinifyStep) :
    Returns (strip t step) fun t' =>
      t'.code.length < t.code.length ∨ t' = t ∧ Spares t step := by
  rw [strip_eq]
  refine Returns.bind (P := fun t₁ => Fresh parseTree t₁ ∧ (t₁.code.length < t.code.length ∨
    t₁ = t ∧ (step.bodies = true → ∀ n ∈ t.root.namedChildren,
      losesBody t step.exported n = .ok true → bodyRange? n = none))) ?_ fun t₁ ⟨h₁, hbodies⟩ => ?_
  · split
    · intro t₁ ht₁
      refine ⟨stripBodies_fresh h _ t₁ ht₁, ?_⟩
      exact (stripBodies_shorter h _ t₁ ht₁).imp_right fun ⟨heq, hkeeps⟩ => ⟨heq, fun _ => hkeeps⟩
    · rename_i hno
      exact .pure ⟨h, .inr ⟨rfl, fun hyes => absurd hyes hno⟩⟩
  · split
    · rename_i hcomments
      intro t' ht'
      -- the step is idle only if both of its halves are, and then the second one was asked of `t`
      rcases stripComments_shorter h₁ _ t' ht' with hlt | ⟨rfl, huncommented, hreadable⟩
      · rcases hbodies with hlt' | ⟨rfl, -⟩
        · exact .inl (by omega)
        · exact .inl hlt
      · rcases hbodies with hlt' | ⟨rfl, hkeeps⟩
        · exact .inl hlt'
        · exact .inr ⟨rfl, hkeeps, fun _ => huncommented, fun _ => hreadable⟩
    · rename_i hno
      refine .pure (hbodies.imp_right fun ⟨heq, hkeeps⟩ => ⟨heq, hkeeps, ?_, ?_⟩)
      · exact fun hyes => absurd hyes hno
      · exact fun hyes => absurd hyes hno

end Go

end Docsmith
