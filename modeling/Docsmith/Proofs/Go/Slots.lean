import Docsmith.Go.Declarations
import Docsmith.Proofs.Doc.Slot

namespace Docsmith.Go

/-!
# Slots of Go declarations

* `slots_declarations`: what the slots for line comments of a source have in common, the slots of its
  declarations have.
* `vacant_declarations`: the slots of the declarations of a source cover no code, unless there is
  documentation in them.
-/

variable {spans : List (Nat × Nat)} {t : SourceTree} {P : DocSlot → Prop}

/-- The siblings among the members of a group. -/
theorem mem_specs {decl spec : Node} {before : List Node} (h : (before, spec) ∈ specs decl) :
    ∃ n ∈ decl.preorder, (before, spec) ∈ withBefore [] n.children := by
  obtain ⟨⟨outer, child⟩, hchild, hspec⟩ := List.mem_flatMap.mp h
  dsimp only at hspec
  split at hspec
  · rw [List.mem_singleton.mp hspec]
    exact ⟨decl, mem_preorder.mpr (.inl rfl), hchild⟩
  · split at hspec
    · refine ⟨child, mem_preorder.mpr (.inr ⟨child, mem_of_withBefore hchild, ?_⟩), ?_⟩
      · exact mem_preorder.mpr (.inl rfl)
      · exact (List.mem_filter.mp hspec).1
    · cases hspec

/-- The slot of a member is one for line comments, or that of its group. -/
theorem slots_specSlot (h : LineSlots t P) {groupSlot : DocSlot} {parent spec : Node}
    {before : List Node} (hgroup : P groupSlot) (hparent : parent ∈ t.root.preorder)
    (hspec : (before, spec) ∈ withBefore [] parent.children) (indent : String) (sole : Bool) :
    P (specSlot t groupSlot indent sole before spec) := by
  have hline := h.line parent hparent before spec hspec
  unfold specSlot
  dsimp only
  split
  · split
    · split
      · exact hline
      · exact hgroup
    · exact hgroup
  · split
    · exact hline
    · exact h.inline parent hparent before spec hspec indent

theorem slots_interfaceMethods (h : LineSlots t P) (owner : String) {body : Node}
    (hbody : body ∈ t.root.preorder) :
    Returns (interfaceMethods t owner body) (AllSlots P) := by
  refine .mapM fun ⟨before, n⟩ hn => ?_
  have hmem : (before, n) ∈ withBefore [] body.children := (List.mem_filter.mp hn).1
  exact (Returns.of_any _).bind fun name _ => .pure (h.line body hbody before n hmem)

theorem slots_typeSpec (h : LineSlots t P) {slot : DocSlot} (hslot : P slot) (keyword : String)
    {spec : Node} (hspec : spec ∈ t.root.preorder) :
    Returns (typeSpec t keyword slot spec) (AllSlots P) := by
  refine (Returns.of_any _).bind fun name _ => ?_
  dsimp only
  cases htype : spec.child? "type" with
  | none => exact .pure (allSlots_singleton hslot)
  | some body =>
    have hbody : body ∈ t.root.preorder := preorder_child hspec (List.mem_of_find?_eq_some htype)
    dsimp only
    split
    · refine (slots_interfaceMethods h name hbody).bind fun methods hmethods => .pure ?_
      intro d hd
      rcases List.mem_cons.mp hd with rfl | hd
      · exact hslot
      · exact hmethods d hd
    · exact .pure (allSlots_singleton hslot)

theorem slots_valueSpec {slot : DocSlot} (hslot : P slot) (keyword : String) (spec : Node) :
    Returns (valueSpec t keyword slot spec) (AllSlots P) := by
  refine (Returns.of_any _).bind fun names _ => ?_
  split
  · exact .pure fun d hd => by cases hd
  · exact .pure (allSlots_singleton hslot)

theorem slots_group (h : LineSlots t P) {before : List Node} {decl : Node}
    (hdecl : decl ∈ t.root.preorder) (hgroup : P (lineSlot t.code before decl))
    (keyword : String) : Returns (group t keyword before decl) (AllSlots P) := by
  unfold group
  dsimp only
  refine Returns.bind (P := fun found => ∀ ds ∈ found, AllSlots P ds)
    (.mapM fun ⟨before', spec⟩ hspec => ?_) fun found hfound => .pure (allSlots_flatten hfound)
  obtain ⟨n, hn, hmem⟩ := mem_specs hspec
  have hparent : n ∈ t.root.preorder := preorder_trans _ hdecl hn
  have hmember : spec ∈ t.root.preorder := preorder_child hparent (mem_of_withBefore hmem)
  have hslot := fun indent sole => slots_specSlot h hgroup hparent hmem indent sole
  split
  · exact slots_typeSpec h (hslot _ _) keyword hmember
  · exact slots_valueSpec (hslot _ _) keyword spec

/-- The declarations of a construct at the top level. -/
theorem slots_topLevel (h : LineSlots t P) {before : List Node} {n : Node}
    (hmem : (before, n) ∈ withBefore [] t.root.children) :
    Returns (topLevel t before n) (AllSlots P) := by
  have hroot : t.root ∈ t.root.preorder := mem_preorder.mpr (.inl rfl)
  have hline := h.line t.root hroot before n hmem
  have hgroup : ∀ keyword, Returns (group t keyword before n) (AllSlots P) :=
    slots_group h (preorder_child hroot (mem_of_withBefore hmem)) hline
  -- the top level has a branch for each sort of declaration; the slot of all but a group is its line's
  unfold topLevel
  split
  · refine (Returns.bind (P := fun d : Declaration => P d.slot) ?_
      fun d hd => .pure (allSlots_singleton hd))
    exact (Returns.of_any _).bind fun name _ => .pure hline
  · split
    · refine Returns.bind (P := fun d? : Option Declaration => ∀ d ∈ d?, P d.slot) ?_
        fun d? hd => .pure fun d hmem => hd d (by simpa using hmem)
      refine (Returns.of_any _).bind fun owner? _ => ?_
      -- a method without a receiver gives no declaration and needs no slot
      split
      · exact .pure fun d hd => by cases hd
      · refine (Returns.of_any _).bind fun name _ => .pure fun d hd => ?_
        cases hd
        exact hline
    · split
      · exact hgroup _
      · split
        · exact hgroup _
        · split
          · exact hgroup _
          · exact .pure fun d hd => by cases hd

/-- **The slots of Go declarations are slots for line comments.** -/
theorem slots_declarations (h : LineSlots t P) : Returns (declarations t) (AllSlots P) := by
  refine Returns.bind (P := fun found => ∀ ds ∈ found, AllSlots P ds)
    (.mapM fun ⟨before, n⟩ hn => ?_) fun found hfound => .pure (allSlots_flatten hfound)
  exact slots_topLevel h hn

/-- **The slots of Go declarations cover no code**, unless there is documentation in them. -/
theorem vacant_declarations (hspaced : t.spaced = true) :
    Returns (declarations t) (AllVacant spans t.code) :=
  slots_declarations (lineSlots_vacant hspaced)

end Docsmith.Go
