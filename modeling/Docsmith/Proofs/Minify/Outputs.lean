import Docsmith.Proofs.Language.Failures
import Docsmith.Proofs.Minify.Stages
import Docsmith.Proofs.Source.Ink

namespace Docsmith

/-!
# Outputs are sources

A step of minification collects edits of a tree, which change neither its source nor its nodes, and
reads the source anew once they are made.  What a step puts out can thus be read again.

* `SourceTree.Fresh`: a tree is that of its own source, and no edit waits; `SourceTree.Reads.fresh`:
  so it is after reading.
* `SourceTree.Same`: a tree has the source and the nodes of another.
* `SourceTree.reparse_fresh`: reading anew gives a fresh tree.
* `Go.strip_fresh`, `Python.strip_fresh`: so does a step.
* `Language.shrinkAll_parses`: the output of steps can be read.
-/

namespace SourceTree

variable {parse : Bytes → Except Failure SourceTree} {t t₀ : SourceTree}

/-- The tree is what reading its source gives, and no edit waits. -/
structure Fresh (parse : Bytes → Except Failure SourceTree) (t : SourceTree) : Prop where
  parsed : parse t.code = .ok t
  clean : t.edits.dirty = false

/-- Reading a source gives a tree of this source, on which no edit waits. -/
def Reads (parse : Bytes → Except Failure SourceTree) : Prop :=
  ∀ code, Returns (parse code) fun t => t.code = code ∧ t.edits.dirty = false

/-- Trees that are read are fresh. -/
theorem Reads.fresh (h : Reads parse) (code : Bytes) : Returns (parse code) (Fresh parse) := by
  intro t ht
  obtain ⟨hcode, hclean⟩ := h code t ht
  exact ⟨by rw [hcode, ht], hclean⟩

/-- A source without edits stays as it is. -/
theorem render_of_clean (h : t.edits.dirty = false) : t.render = t.code := by
  have hentries : t.edits.entries = [] := by simpa [EditSet.dirty] using h
  have hwhole : t.code.slice (0 : Nat) t.code.length = t.code := by
    rw [Bytes.slice_nat, List.take_length, List.drop_zero]
  simpa [render, EditSet.render, EditSet.ordered, hentries, Bytes.applyEdits] using hwhole

/-- What a fresh tree renders to can be read. -/
theorem Fresh.parse_render (h : Fresh parse t) : parse t.render = .ok t := by
  rw [render_of_clean h.clean]
  exact h.parsed

/-- The tree has the source and the nodes of another; edits may wait. -/
structure Same (t₀ t : SourceTree) : Prop where
  code : t.code = t₀.code
  root : t.root = t₀.root

theorem Same.refl (t : SourceTree) : Same t t := ⟨rfl, rfl⟩

theorem Same.edit (h : Same t₀ t) (key : String) (start stop : Int) (text : Bytes) :
    Same t₀ (t.edit key start stop text) := ⟨h.code, h.root⟩

/-- A tree to which nothing but edits is done, element by element of a list. -/
theorem Same.foldl {α : Type} {f : SourceTree → α → SourceTree} (h : Same t₀ t) (xs : List α)
    (hf : ∀ t a, Same t₀ t → Same t₀ (f t a)) : Same t₀ (xs.foldl f t) := by
  induction xs generalizing t with
  | nil => exact h
  | cons a rest ih => exact ih (hf t a h)

theorem same_dropComments (t : SourceTree) : Same t t.dropComments :=
  (Same.refl t).foldl _ fun _ _ h => h.edit _ _ _ _

/-- A tree of the same source and nodes without edits is the same tree. -/
theorem Same.eq_of_clean (h : Same t₀ t) (h₀ : t₀.edits.dirty = false)
    (hclean : t.edits.dirty = false) : t = t₀ := by
  obtain ⟨code, root, ⟨entries⟩⟩ := t
  obtain ⟨code₀, root₀, ⟨entries₀⟩⟩ := t₀
  have hcode : code = code₀ := h.code
  have hroot : root = root₀ := h.root
  have hentries : entries = [] := by simpa [EditSet.dirty] using hclean
  have hentries₀ : entries₀ = [] := by simpa [EditSet.dirty] using h₀
  rw [hcode, hroot, hentries, hentries₀]

/-- **Reading a tree anew gives a fresh one.** -/
theorem reparse_fresh (hparse : Reads parse) (h₀ : Fresh parse t₀) (h : Same t₀ t) :
    Returns (t.reparse parse) (Fresh parse) := by
  -- the source is read anew only if there are edits; else the tree is the one that was read before
  unfold reparse
  split
  case isTrue => exact hparse.fresh _
  case isFalse hdirty =>
    have heq : t = t₀ := h.eq_of_clean h₀.clean (by simpa using hdirty)
    rw [heq]
    exact .pure h₀

/-- Without edits there is nothing to read anew. -/
theorem reparse_of_clean (h : t.edits.dirty = false) : t.reparse parse = .ok t := by
  unfold reparse
  rw [h]
  rfl

/-- What is read anew is what the edits make of the source. -/
theorem reparse_code (hparse : Reads parse) :
    Returns (t.reparse parse) fun t' => t'.code = t.render := by
  unfold reparse
  split
  · exact fun t' ht' => (hparse t.render t' ht').1
  · rename_i hdirty
    exact .pure (render_of_clean (by simpa using hdirty)).symm

end SourceTree

open SourceTree

/-! ### Go -/

namespace Go

variable {t : SourceTree}

theorem parseTree_reads : Reads parseTree := by
  intro code t h
  unfold parseTree at h
  split at h
  case h_1 =>
    cases h
    exact ⟨rfl, rfl⟩
  case h_2 => cases h

theorem stripBodies_fresh (h : Fresh parseTree t) (exported : Bool) :
    Returns (stripBodies t exported) (Fresh parseTree) := by
  unfold stripBodies
  refine Returns.bind (P := Same t) (.foldlM _ (fun t' ht n _ => ?_) (.refl t)) fun t' ht => ?_
  · refine (Returns.of_any _).bind fun loses _ => ?_
    split
    · split
      · exact .pure (ht.edit _ _ _ _)
      · exact .pure ht
    · exact .pure ht
  · exact reparse_fresh parseTree_reads h ht

theorem stripComments_fresh (h : Fresh parseTree t) (exported : Bool) :
    Returns (stripComments t exported) (Fresh parseTree) := by
  unfold stripComments
  split
  · exact reparse_fresh parseTree_reads h (same_dropComments t)
  · refine (Returns.of_any _).bind fun ds _ => ?_
    exact reparse_fresh parseTree_reads h ((Same.refl t).foldl _ fun _ _ h => h.edit _ _ _ _)

/-- A step on a fresh Go tree gives a fresh one. -/
theorem strip_fresh (h : Fresh parseTree t) (step : MinifyStep) :
    Returns (strip t step) (Fresh parseTree) := by
  rw [strip_eq]
  refine Returns.bind (P := Fresh parseTree) ?_ fun t ht => ?_
  · split
    · exact stripBodies_fresh h _
    · exact .pure h
  · split
    · exact stripComments_fresh ht _
    · exact .pure ht

end Go

/-! ### Python -/

namespace Python

variable {t : SourceTree}

theorem parseTree_reads : Reads parseTree := by
  intro code t h
  unfold parseTree at h
  split at h
  case h_1 =>
    cases h
    exact ⟨rfl, rfl⟩
  case h_2 => cases h

theorem stripBodies_fresh (h : Fresh parseTree t) (exported : Bool) :
    Returns (stripBodies t exported) (Fresh parseTree) := by
  refine (Returns.of_any _).bind fun ds _ => ?_
  refine reparse_fresh parseTree_reads h ((Same.refl t).foldl _ fun t' ⟨d, n?⟩ ht => ?_)
  cases n? with
  | none => exact ht
  | some n =>
    dsimp only
    split
    · exact ht
    · split
      · exact ht.edit _ _ _ _
      · exact ht

theorem clearHidden_fresh (h : Fresh parseTree t) :
    Returns (clearHidden t) (Fresh parseTree) := by
  refine (Returns.of_any _).bind fun ds _ => ?_
  refine reparse_fresh parseTree_reads h ((Same.refl t).foldl _ fun t' ⟨d, _⟩ ht => ?_)
  dsimp only
  split
  · exact ht
  · exact ht.edit _ _ _ _

theorem clearDocstrings_same (t : SourceTree) : Returns (clearDocstrings t) (Same t) := by
  refine .foldlM _ (fun t' ht n _ => ?_) (.refl t)
  refine (Returns.of_any _).bind fun slot _ => ?_
  split
  · exact .pure (ht.edit _ _ _ _)
  · exact .pure ht

theorem Same.clearModuleDoc {t₀ : SourceTree} (h : Same t₀ t) : Same t₀ (clearModuleDoc t) := by
  unfold Python.clearModuleDoc
  split
  · split
    · exact h.edit _ _ _ _
    · exact h
  · exact h

theorem stripComments_fresh (h : Fresh parseTree t) (exported : Bool) :
    Returns (stripComments t exported) (Fresh parseTree) := by
  unfold stripComments
  split
  · exact clearHidden_fresh h
  · refine (reparse_fresh parseTree_reads h (same_dropComments t)).bind fun t₁ h₁ => ?_
    refine (clearDocstrings_same t₁).bind fun t₂ h₂ => ?_
    exact reparse_fresh parseTree_reads h₁ (Same.clearModuleDoc h₂)

/-- A step on a fresh Python tree gives a fresh one. -/
theorem strip_fresh (h : Fresh parseTree t) (step : MinifyStep) :
    Returns (strip t step) (Fresh parseTree) := by
  rw [strip_eq]
  refine Returns.bind (P := Fresh parseTree) ?_ fun t ht => ?_
  · split
    · exact stripBodies_fresh h _
    · exact .pure h
  · split
    · exact stripComments_fresh ht _
    · exact .pure ht

end Python

/-! ### Languages -/

namespace Language

variable {l : Language}

/-- Steps of a language go from fresh trees to fresh trees. -/
structure KeepsFresh (l : Language) : Prop where
  parse : Reads l.parse
  strip : ∀ t, Fresh l.parse t → ∀ step, Returns (l.strip t step) (Fresh l.parse)

theorem go_keepsFresh : go.KeepsFresh where
  parse := by
    rw [go_parse]
    exact Go.parseTree_reads
  strip := by
    rw [go_parse, go_strip]
    exact fun t h step => Go.strip_fresh h step

theorem python_keepsFresh : python.KeepsFresh where
  parse := by
    rw [python_parse]
    exact Python.parseTree_reads
  strip := by
    rw [python_parse, python_strip]
    exact fun t h step => Python.strip_fresh h step

/-- The output of a step can be read. -/
theorem shrink_parses (h : l.KeepsFresh) (code : Bytes) (step : MinifyStep) :
    Returns (l.shrink code step) fun out => ∃ t, l.parse out = .ok t := by
  refine (h.parse.fresh code).bind fun t ht => ?_
  refine (h.strip t ht step).bind fun t' ht' => .pure ?_
  exact ⟨t', ht'.parse_render⟩

/-- **The output of steps can be read**, as long as there is a step. -/
theorem shrinkAll_parses (h : l.KeepsFresh) {steps : List MinifyStep} (hsteps : steps ≠ [])
    (code : Bytes) : Returns (l.shrinkAll steps code) fun out => ∃ t, l.parse out = .ok t := by
  cases steps with
  | nil => exact absurd rfl hsteps
  | cons step rest =>
    unfold shrinkAll
    rw [List.foldlM_cons]
    refine (shrink_parses h code step).bind fun out hout => ?_
    exact .foldlM rest (fun code _ step _ => shrink_parses h code step) hout

end Language

end Docsmith
