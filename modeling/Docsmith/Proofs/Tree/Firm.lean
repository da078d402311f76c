import Docsmith.Proofs.Doc.Places
import Docsmith.Proofs.Grammar.Lined
import Docsmith.Proofs.Minify.Outputs
import Docsmith.Proofs.Source.Taming

namespace Docsmith

/-!
# Trees that cut no character

Where a tree is firm, its nodes begin and end between the characters of a text, and the parts of a node come one
after another.  What goes with a comment, or with the comments above a declaration, cuts no character then.

* `SourceTree.Firm`: no node of a tree cuts a character, and the parts of nodes are in order.
* `SourceTree.Revised`: a tree with edits of some sort, and what reading it anew makes of its source.
* `SourceTree.Firm.revised_dropComments`: comments are deleted by edits that cut no character.
* `SourceTree.Firm.lineSlots_cut`: neither do those that delete the comments above a declaration.
-/

open Grammar

namespace SourceTree

variable {parse : Bytes → Except Failure SourceTree} {P Q : Edit → Prop} {t t₀ : SourceTree} {n c d : Node}

/-- No node cuts a character of the source, and the parts of each node come one after another inside it. -/
structure Firm (t : SourceTree) : Prop where
  bounded : t.root.stop ≤ t.code.length
  parts : ∀ n ∈ t.root.preorder, Ranged t.code.Whole n

/-! ### Nodes -/

/-- A node of a firm tree lies in the source. -/
theorem Firm.node (h : t.Firm) (hn : n ∈ t.root.preorder) : n.start ≤ n.stop ∧ n.stop ≤ t.code.length := by
  refine ⟨(h.parts n hn).parts.le, Nat.le_trans (stop_le_of_inside (fun m hm c hc => ?_) hn) h.bounded⟩
  obtain ⟨hlow, -, hhigh⟩ := ((h.parts m hm).parts.mem hc).1
  exact ⟨hlow, hhigh⟩

/-- The parts of a node of a firm tree are in order. -/
theorem Firm.ordered (h : t.Firm) (hn : n ∈ t.root.preorder) : n.children.Pairwise fun a b => a.stop ≤ b.start :=
  (h.parts n hn).parts.pairwise

/-- From where one node begins or ends to where another one does no character is cut. -/
theorem Firm.cuts (h : t.Firm) (hn : n ∈ t.root.preorder) {a : Nat} (ha : t.code.Whole a) (hle : a ≤ n.stop) :
    Edit.Cuts t.code ⟨a, n.stop, []⟩ :=
  ⟨a, n.stop, hle, ha, (h.parts n hn).ends.2, rfl⟩

/-! ### Edits of a tree -/

/-- The tree is another one with edits of some sort. -/
structure Revised (P : Edit → Prop) (t₀ t : SourceTree) : Prop extends Same t₀ t where
  edits : ∀ x ∈ t.edits.entries, P x.2

theorem Revised.refl (h : t.edits.dirty = false) : Revised P t t where
  toSame := .refl t
  edits := by
    have hentries : t.edits.entries = [] := by simpa [EditSet.dirty] using h
    rw [hentries]
    exact List.forall_mem_nil _

theorem Revised.edit (h : Revised P t₀ t) (key : String) {start stop : Int} {text : Bytes}
    (hedit : P ⟨start, stop, text⟩) : Revised P t₀ (t.edit key start stop text) where
  toSame := h.toSame.edit _ _ _ _
  edits := by
    intro x hx
    rcases mem_put (EditSet.put key ⟨start, stop, text⟩) rfl (EditSet.put_cons key _) hx with rfl | hx
    · exact hedit
    · exact h.edits x hx

theorem Revised.mono (h : Revised P t₀ t) (hPQ : ∀ e, P e → Q e) : Revised Q t₀ t :=
  ⟨h.toSame, fun x hx => hPQ x.2 (h.edits x hx)⟩

/-- What is true of all trees that are read, and of a tree without edits, is true of what that tree is read anew
    as. -/
theorem reparse_keeps {G : SourceTree → Prop} (hread : ∀ code, Returns (parse code) G) (h₀ : G t₀)
    (hclean : t₀.edits.dirty = false) (h : Same t₀ t) : Returns (t.reparse parse) G := by
  unfold reparse
  split
  · exact hread t.render
  · rename_i hdirty
    rw [h.eq_of_clean hclean (by simpa using hdirty)]
    exact .pure h₀

/-- **Reading a tree anew adds no words** if its edits are tame. -/
theorem Revised.tamed (hparse : Reads parse) (h : Revised (Edit.Tame t₀.code) t₀ t) :
    Returns (t.reparse parse) fun t' => t₀.code.Tamed t'.code := by
  intro t' ht'
  rw [reparse_code hparse t' ht', render, h.code]
  exact EditSet.tamed_render h.edits

/-- **Reading a tree anew adds no characters** if its edits are deletions. -/
theorem Revised.shorter (hparse : Reads parse) (h : Revised (Edit.Cuts t₀.code) t₀ t) :
    Returns (t.reparse parse) fun t' => t₀.code.NoMoreTokens Tokenizer.chars t'.code := by
  intro t' ht'
  rw [reparse_code hparse t' ht', render, h.code]
  exact EditSet.shorter_render h.edits

/-! ### Comments -/

/-- **Comments are deleted without cutting a character.** -/
theorem Firm.revised_dropComments (h : t.Firm) (hclean : t.edits.dirty = false) :
    Revised (Edit.Cuts t.code) t t.dropComments := by
  refine List.foldlRecOn _ _ (Revised.refl hclean) fun t' ht' c hc => ?_
  have hmem := (mem_findAll.mp hc).1
  obtain ⟨hsize, hstop⟩ := h.node hmem
  obtain ⟨hwhole, hwhole'⟩ := (h.parts c hmem).ends
  dsimp only
  rw [ht'.code, Bytes.removalRange_eq t.code (c.start, c.stop)]
  obtain ⟨hlow, hhigh, -⟩ := Bytes.cut_spec (s := (c.start, c.stop)) hstop
  obtain ⟨ha, hb⟩ := Bytes.whole_cut (s := (c.start, c.stop)) hwhole hwhole' (Nat.le_trans hsize hstop)
  exact ht'.edit _ ⟨_, _, Nat.le_trans hlow (Nat.le_trans hsize hhigh), ha, hb, rfl⟩

/-- The comments above a node are siblings of it, in their order. -/
theorem leadingComments_sublist {code : Bytes} {before xs : List Node}
    (hmem : (before, n) ∈ withBefore [] xs) : (leadingComments code before n).Sublist xs := by
  obtain ⟨run, rest, hsplit, hrun, -⟩ := leadingFrom_spec code n.row (before.filter Node.named)
  obtain ⟨after, hxs⟩ := mem_withBefore hmem
  rw [List.reverse_nil, List.nil_append] at hxs
  have hbefore : run.Sublist before :=
    (List.sublist_append_left run rest).trans (hsplit ▸ List.filter_sublist)
  rw [leadingComments, hrun, hxs]
  exact hbefore.reverse.trans (List.sublist_append_left _ _)

/-- **The comments above a declaration are deleted without cutting a character**, with their lines. -/
theorem Firm.lineSlots_cut (h : t.Firm) :
    LineSlots t fun s => s.hasDoc = true → Edit.Cuts t.code ⟨s.start, s.stop, []⟩ where
  line := by
    intro parent hparent before n hmem
    have hsub : (leadingComments t.code before n).Sublist parent.children := leadingComments_sublist hmem
    unfold lineSlot
    cases hcomments : leadingComments t.code before n with
    | nil => intro hdoc; cases hdoc
    | cons first rest =>
      intro _
      rw [hcomments] at hsub
      have hpart (c : Node) (hc : c ∈ first :: rest) : c ∈ t.root.preorder :=
        preorder_child hparent (hsub.subset hc)
      have hlast : (first :: rest).getLastD first ∈ first :: rest := by
        rw [List.getLastD_cons]
        exact List.getLastD_mem_cons
      -- the first comment does not begin behind the end of the last
      have hle : first.start ≤ ((first :: rest).getLastD first).stop := by
        have hfirst := (h.node (hpart first List.mem_cons_self)).1
        have hend := (h.node (hpart _ hlast)).1
        rcases List.mem_cons.mp hlast with heq | hmore
        · rw [heq]
          exact hfirst
        · have hafter := List.rel_of_pairwise_cons ((h.ordered hparent).sublist hsub) hmore
          omega
      have hlineStart := Bytes.lineStart_le t.code first.start
      have hlineEnd := Bytes.le_lineEnd (h.node (hpart _ hlast)).2
      exact ⟨_, _, by omega, Bytes.whole_lineStart _ _, Bytes.whole_lineEnd _ _, rfl⟩
  inline := by
    intro parent hparent before n hmem indent hdoc
    cases hdoc

end SourceTree

end Docsmith
