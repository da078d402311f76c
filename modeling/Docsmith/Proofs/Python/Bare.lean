import Docsmith.Proofs.Minify.Bare
import Docsmith.Proofs.Python.Slots

namespace Docsmith

open SourceTree

/-!
# Bare Python sources

* `Python.isBare`: there is nothing in a source that a step of minification takes.
* `Python.strip_of_bare`: no step changes such a source.
-/

namespace Python

variable {t : SourceTree} {n : Node} {ds : List (Declaration × Option Node)}

/-- The body of a definition begins with a statement, and this is no string literal. -/
def beginsPlain (n : Node) : Bool :=
  match (n.child? "body").map statements with
  | some (first :: _) => !isDocstring first
  | _ => false

/-- The definition is no function that loses its body. -/
def keepsBody (x : Declaration × Option Node) : Bool :=
  x.2.all fun n => n.kind != "function_definition" || (bodyRange? n).isNone

/-- There is nothing in the source that a step takes: no comment, no string literal at the head of
    it or of a body, and no function whose body is to go.  All names in it are text. -/
def isBare (t : SourceTree) : Bool :=
  t.uncommented && !(statements t.root).head?.any isDocstring
    && t.root.preorder.all (fun n => !isDefinition n || beginsPlain n)
    && match definitions t with
      | .ok ds => ds.all keepsBody
      | .error _ => false

/-- What the parts of a bare source are like. -/
structure Bare (t : SourceTree) (ds : List (Declaration × Option Node)) : Prop where
  uncommented : t.uncommented = true
  head : (statements t.root).head?.any isDocstring = false
  heads : ∀ n ∈ t.root.preorder, isDefinition n = true → beginsPlain n = true
  readable : definitions t = .ok ds
  bodies : ∀ x ∈ ds, keepsBody x = true

theorem bare_of_isBare (h : isBare t = true) : ∃ ds, Bare t ds := by
  simp only [isBare, Bool.and_eq_true] at h
  obtain ⟨⟨⟨huncommented, hhead⟩, hheads⟩, hbodies⟩ := h
  cases hds : definitions t with
  | error f => rw [hds] at hbodies; cases hbodies
  | ok ds =>
    rw [hds] at hbodies
    refine ⟨ds, huncommented, by simpa using hhead, ?_, hds, List.all_eq_true.mp hbodies⟩
    intro n hn hdefinition
    have hplain := List.all_eq_true.mp hheads n hn
    simpa [hdefinition] using hplain

/-- The slot of a definition whose body begins plainly is there, and it is plain. -/
theorem plain_docstringSlot (hparse : parse t.code = .ok t.root) (hn : n ∈ t.root.preorder)
    (hdefinition : isDefinition n = true) (hplain : beginsPlain n = true) :
    ∃ slot, docstringSlot t n = .ok slot ∧ slot.Plain := by
  obtain ⟨before, between, colon, block, h⟩ := headed_of_parse hparse hn hdefinition
  unfold beginsPlain at hplain
  rw [h.body?] at hplain
  unfold docstringSlot
  rw [h.lastColon, h.body?]
  cases hstatements : statements block with
  | nil => simp [hstatements] at hplain
  | cons first others =>
    have hfirst : isDocstring first = false := by simpa [hstatements] using hplain
    simp only [Option.map_some, Option.getD_some, hstatements, hfirst, Bool.false_eq_true, if_false]
    split
    · exact ⟨_, rfl, rfl, rfl⟩
    · exact ⟨_, rfl, rfl, rfl⟩

/-- The nodes of a fresh tree are those of its source. -/
theorem parse_of_fresh (h : Fresh parseTree t) : parse t.code = .ok t.root := by
  have hparsed := h.parsed
  unfold parseTree at hparsed
  split at hparsed
  case h_1 root hroot =>
    rw [hroot]
    exact congrArg Except.ok (congrArg SourceTree.root (Except.ok.inj hparsed))
  case h_2 => cases hparsed

/-- Every declaration of a bare source has a plain slot. -/
theorem Bare.plain (h : Bare t ds) (hfresh : Fresh parseTree t) {x : Declaration × Option Node}
    (hx : x ∈ ds) : x.1.slot.Plain := by
  have hdocstring : ∀ n ∈ t.root.preorder, isDefinition n = true →
      Returns (docstringSlot t n) DocSlot.Plain := by
    intro n hn hdefinition slot hslot
    obtain ⟨slot', hslot', hplain⟩ :=
      plain_docstringSlot (parse_of_fresh hfresh) hn hdefinition (h.heads n hn hdefinition)
    rw [hslot] at hslot'
    rw [Except.ok.inj hslot']
    exact hplain
  exact (slots_definitions hdocstring (lineSlots_plain h.uncommented) ds h.readable x hx).1

theorem stripBodies_of_bare (h : Bare t ds) (hfresh : Fresh parseTree t) (exported : Bool) :
    stripBodies t exported = .ok t := by
  unfold stripBodies
  rw [h.readable]
  show (List.foldl _ t ds).reparse parseTree = .ok t
  rw [foldl_eq_self]
  · exact reparse_of_clean hfresh.clean
  · rintro ⟨d, n?⟩ hx
    have hkeeps := h.bodies _ hx
    cases n? with
    | none => rfl
    | some n =>
      by_cases hkind : n.kind = "function_definition"
      · have hbody : bodyRange? n = none := by simpa [keepsBody, hkind] using hkeeps
        simp [hbody]
      · simp [hkind]

theorem clearHidden_of_bare (h : Bare t ds) (hfresh : Fresh parseTree t) :
    clearHidden t = .ok t := by
  unfold clearHidden
  rw [h.readable]
  show (List.foldl _ t ds).reparse parseTree = .ok t
  rw [foldl_eq_self]
  · exact reparse_of_clean hfresh.clean
  · rintro ⟨d, n?⟩ hx
    have hplain : d.slot.Plain := h.plain hfresh hx
    simp [hplain.hasDoc, hplain.clear]

theorem clearDocstrings_of_bare (h : Bare t ds) (hfresh : Fresh parseTree t) :
    clearDocstrings t = .ok t := by
  refine foldlM_eq_self fun n hn => ?_
  obtain ⟨hpreorder, hkind⟩ := mem_findAll.mp hn
  have hdefinition : isDefinition n = true := by simpa [isDefinition] using hkind
  obtain ⟨slot, hslot, hplain⟩ := plain_docstringSlot (parse_of_fresh hfresh) hpreorder hdefinition
    (h.heads n hpreorder hdefinition)
  -- a plain slot has nothing that would take the place of a docstring
  simp only [hslot, bind, Except.bind, hplain.clear]
  rfl

theorem clearModuleDoc_of_bare (h : Bare t ds) : clearModuleDoc t = t := by
  have hhead := h.head
  unfold clearModuleDoc
  cases hstatements : statements t.root with
  | nil => rfl
  | cons doc rest =>
    have hdoc : isDocstring doc = false := by simpa [hstatements] using hhead
    simp [hdoc]

theorem stripComments_of_bare (h : Bare t ds) (hfresh : Fresh parseTree t) (exported : Bool) :
    stripComments t exported = .ok t := by
  cases exported with
  | false => exact clearHidden_of_bare h hfresh
  | true =>
    have hread : t.reparse parseTree = .ok t := reparse_of_clean hfresh.clean
    -- comments, docstrings and the one of the module go one after another; the source is read anew
    -- in between
    show (t.dropComments.reparse parseTree >>= fun t => clearDocstrings t >>= fun t =>
      (clearModuleDoc t).reparse parseTree) = .ok t
    rw [dropComments_of_uncommented h.uncommented, hread]
    show (clearDocstrings t >>= fun t => (clearModuleDoc t).reparse parseTree) = .ok t
    rw [clearDocstrings_of_bare h hfresh]
    show (clearModuleDoc t).reparse parseTree = .ok t
    rw [clearModuleDoc_of_bare h, hread]

/-- **A bare Python source stays as it is.** -/
theorem strip_of_bare (h : Bare t ds) (hfresh : Fresh parseTree t) (step : MinifyStep) :
    strip t step = .ok t := by
  have hbodies : (if step.bodies then stripBodies t step.exported else pure t) = .ok t := by
    split
    · exact stripBodies_of_bare h hfresh _
    · rfl
  have hcomments : (if step.comments then stripComments t step.exported else pure t) = .ok t := by
    split
    · exact stripComments_of_bare h hfresh _
    · rfl
  rw [strip_eq, hbodies]
  exact hcomments

end Python

end Docsmith
