import Docsmith.Proofs.Go.Slots
import Docsmith.Proofs.Minify.Bare

namespace Docsmith

open SourceTree

/-!
# Bare Go sources

* `Go.isBare`: there is nothing in a source that a step of minification takes.
* `Go.strip_of_bare`: no step changes such a source.
-/

namespace Go

variable {t : SourceTree} {n : Node}

/-- The node is no function or method that loses its body. -/
def keepsBody (t : SourceTree) (n : Node) : Bool :=
  match losesBody t true n with
  | .ok true => (bodyRange? n).isNone
  | _ => true

/-- There is nothing in the source that a step takes: no comment, and no function or method whose
    body is to go.  All names in it are text. -/
def isBare (t : SourceTree) : Bool :=
  t.uncommented && t.root.namedChildren.all (keepsBody t) && (declarations t).isOk

/-- What the parts of a bare source are like. -/
structure Bare (t : SourceTree) : Prop where
  uncommented : t.uncommented = true
  bodies : ∀ n ∈ t.root.namedChildren, losesBody t true n = .ok true → bodyRange? n = none
  readable : ∃ ds, declarations t = .ok ds

theorem bare_iff : isBare t = true ↔ Bare t := by
  have hbodies : t.root.namedChildren.all (keepsBody t) = true ↔
      ∀ n ∈ t.root.namedChildren, losesBody t true n = .ok true → bodyRange? n = none := by
    rw [List.all_eq_true]
    refine forall₂_congr fun n _ => ?_
    unfold keepsBody
    split
    case h_1 hloses => simp [hloses]
    case h_2 hother => exact iff_of_true rfl fun hloses => (hother hloses).elim
  have hreadable : (declarations t).isOk = true ↔ ∃ ds, declarations t = .ok ds := by
    cases declarations t <;> simp [Except.isOk, Except.toBool]
  simp only [isBare, Bool.and_eq_true, hbodies, hreadable]
  exact ⟨fun ⟨⟨h, h'⟩, h''⟩ => ⟨h, h', h''⟩, fun ⟨h, h', h''⟩ => ⟨⟨h, h'⟩, h''⟩⟩

/-- A body that goes in some step goes in a step that takes what is exported, too. -/
theorem losesBody_mono {exported : Bool} (h : losesBody t exported n = .ok true) :
    losesBody t true n = .ok true := by
  -- only whether the name is exported is asked differently; that it can be read is the same
  unfold losesBody at h ⊢
  dsimp only at h ⊢
  split
  · rw [if_pos ‹_›] at h
    cases hdecl : function t [] n with
    | error f => rw [hdecl] at h; cases h
    | ok d => rfl
  · rw [if_neg ‹_›] at h
    split
    · rw [if_pos ‹_›] at h
      cases hdecl : method t [] n with
      | error f => rw [hdecl] at h; cases h
      | ok d? =>
        rw [hdecl] at h
        cases d? with
        | none => cases h
        | some d => rfl
    · rw [if_neg ‹_›] at h
      cases h

/-- What a function or method is called does not depend on what is before it. -/
theorem function_ok {before : List Node} {d : Declaration} (h : function t before n = .ok d) :
    ∃ d', function t [] n = .ok d' := by
  unfold function at h ⊢
  cases hname : t.textOf (n.child? "name") with
  | error f => rw [hname] at h; cases h
  | ok name => exact ⟨_, rfl⟩

theorem method_ok {before : List Node} {d? : Option Declaration}
    (h : method t before n = .ok d?) : ∃ d?', method t [] n = .ok d?' := by
  unfold method at h ⊢
  cases hreceiver : receiver t n with
  | error f => rw [hreceiver] at h; cases h
  | ok owner? =>
    rw [hreceiver] at h
    cases owner? with
    | none => exact ⟨_, rfl⟩
    | some owner =>
      cases hname : t.textOf (n.child? "name") with
      | error f => rw [hname] at h; cases h
      | ok name => exact ⟨_, rfl⟩

/-- Whether a body is to go can be told of a node whose declarations can. -/
theorem losesBody_ok {before : List Node} {ds : List Declaration}
    (h : topLevel t before n = .ok ds) (exported : Bool) :
    ∃ loses, losesBody t exported n = .ok loses := by
  unfold topLevel at h
  unfold losesBody
  by_cases hfunction : n.kind == "function_declaration"
  · rw [if_pos hfunction] at h ⊢
    cases hdecl : function t before n with
    | error f => rw [hdecl] at h; cases h
    | ok d =>
      obtain ⟨d', hd'⟩ := function_ok hdecl
      rw [hd']
      exact ⟨_, rfl⟩
  · rw [if_neg hfunction] at h ⊢
    by_cases hmethod : n.kind == "method_declaration"
    · rw [if_pos hmethod] at h ⊢
      cases hdecl : method t before n with
      | error f => rw [hdecl] at h; cases h
      | ok d? =>
        obtain ⟨d', hd'⟩ := method_ok hdecl
        rw [hd']
        exact ⟨_, rfl⟩
    · -- other nodes have no body that goes
      rw [if_neg hmethod]
      exact ⟨_, rfl⟩

/-- Whether a body is to go can be told of all nodes at the top level of a bare source. -/
theorem Bare.losesBody_ok (h : Bare t) (hn : n ∈ t.root.namedChildren) (exported : Bool) :
    ∃ loses, losesBody t exported n = .ok loses := by
  obtain ⟨siblings, hmem⟩ := exists_withBefore (List.mem_filter.mp hn).1 []
  obtain ⟨ds, hds⟩ := h.readable
  -- the declarations could be listed, so those of this node could
  have htold : Returns (declarations t) fun _ => ∃ ds, topLevel t siblings n = .ok ds := by
    refine (Returns.mapM_mem _ _).bind fun found hfound => .pure ?_
    obtain ⟨ds, -, hds⟩ := hfound (siblings, n) hmem
    exact ⟨ds, hds⟩
  obtain ⟨ds', hds'⟩ := htold ds hds
  exact Go.losesBody_ok hds' exported

theorem stripBodies_of_bare (h : Bare t) (hfresh : Fresh parseTree t) (exported : Bool) :
    stripBodies t exported = .ok t := by
  unfold stripBodies
  rw [foldlM_eq_self]
  · exact reparse_of_clean hfresh.clean
  · intro n hn
    obtain ⟨loses, hloses⟩ := h.losesBody_ok hn exported
    rw [hloses]
    cases loses with
    | false => rfl
    | true =>
      rw [h.bodies n hn (losesBody_mono hloses)]
      rfl

theorem stripComments_of_bare (h : Bare t) (hfresh : Fresh parseTree t) (exported : Bool) :
    stripComments t exported = .ok t := by
  -- without the exported ones only documented declarations are cleared, and a bare tree has none
  cases exported with
  | true =>
    show t.dropComments.reparse parseTree = .ok t
    rw [dropComments_of_uncommented h.uncommented]
    exact reparse_of_clean hfresh.clean
  | false =>
    obtain ⟨ds, hds⟩ := h.readable
    have hplain : AllSlots DocSlot.Plain ds :=
      slots_declarations (lineSlots_plain h.uncommented) ds hds
    have hnone : ds.filter (fun d => !d.exported && d.slot.hasDoc) = [] := by
      rw [List.filter_eq_nil_iff]
      intro d hd
      simp [(hplain d hd).hasDoc]
    unfold stripComments
    rw [hds]
    show (List.foldl _ t (ds.filter fun d => !d.exported && d.slot.hasDoc)).reparse parseTree
      = .ok t
    rw [hnone]
    exact reparse_of_clean hfresh.clean

/-- **A bare Go source stays as it is.** -/
theorem strip_of_bare (h : Bare t) (hfresh : Fresh parseTree t) (step : MinifyStep) :
    strip t step = .ok t := by
  have hbodies : (if step.bodies then stripBodies t step.exported else pure t) = .ok t := by
    split
    · exact stripBodies_of_bare h hfresh _
    · rfl
  have hcomments : (if step.comments then stripComments t step.exported else pure t) = .ok t := by
    split
    · exact stripComments_of_bare h hfresh _
    · rfl
  rw [strip_eq, hbodies]
  exact hcomments

end Go

end Docsmith
