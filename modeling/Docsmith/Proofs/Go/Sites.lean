import Docsmith.Proofs.Doc.Grown
import Docsmith.Proofs.Doc.Landing
import Docsmith.Proofs.Doc.LineComment
import Docsmith.Proofs.Go.Formed
import Docsmith.Proofs.Go.Joints
import Docsmith.Proofs.Go.Members

namespace Docsmith.Go

open Grammar

/-!
# Where the declarations of a Go source are

Each declaration is a node of a construct at the top level.  Without documentation its slot is the beginning of a line
or, for one of several members of a group, the white space before it.

* `Shaped`, `shaped_of_parse`: what is known of the tree of a parsed source.
* `Shaped.before_member`, `Shaped.landing_of_member`: members stand behind a keyword; a comment on one of several stands
  in front of it.
* `Indented`: slots whose indent is white space.
* `Vacancy`: the slots of declarations without documentation.
* `Sited`, `sited_declarations`: where the declarations of a source are.
-/

variable {t : SourceTree} {n n' root m : Node} {x : List Node × Node}

/-! ### Where declarations are -/

/-- A part of a construct lies in it. -/
theorem within_of_preorder (h : ∀ n ∈ root.preorder, ∀ c ∈ n.children, n.start ≤ c.start ∧ c.stop ≤ n.stop)
    (hn : n ∈ root.preorder) : root.start ≤ n.start ∧ n.stop ≤ root.stop := by
  induction root using Node.induction with
  | _ root ih =>
    rcases mem_preorder.mp hn with rfl | ⟨c, hc, hnc⟩
    · exact ⟨Nat.le_refl _, Nat.le_refl _⟩
    · have hinner := ih c hc (fun m hm => h m (mem_preorder.mpr (.inr ⟨c, hc, hm⟩))) hnc
      have hroot := h root (mem_preorder.mpr (.inl rfl)) c hc
      omega

/-- Siblings that share code are the same. -/
theorem eq_of_holds {xs : List Node} (h : Aligned t.code xs) (hn : n ∈ xs) (hn' : n' ∈ xs) {a b : Nat}
    (hab : a < b) (ha : n.start ≤ a ∧ b ≤ n.stop) (hb : n'.start ≤ a ∧ b ≤ n'.stop) : n = n' := by
  by_contra hne
  have hsymm : Std.Symm fun x y : Node => x.stop ≤ y.start ∨ y.stop ≤ x.start := ⟨fun _ _ => Or.symm⟩
  have hapart := (h.ordered.imp (S := fun x y => x.stop ≤ y.start ∨ y.stop ≤ x.start) Or.inl).forall hn hn' hne
  omega

/-- A comment on a declaration of a construct at the top level stands in front of one of the two. -/
theorem landing_of_lands (h : t.Regular) (hn : n ∈ t.root.children) {d : Declaration} (hd : d.start < d.stop)
    (hin : n.start ≤ d.start ∧ d.stop ≤ n.stop) (hlands : t.Lands d) :
    d.landing t.code = d.start ∨ d.kind ≠ .interfaceMethod ∧ d.landing t.code = n.start := by
  refine hlands.imp id fun ⟨hkind, n', hn', hstart, hholds⟩ => ⟨hkind, ?_⟩
  rw [← hstart, eq_of_holds (h.aligned (mem_preorder.mpr (.inl rfl))) hn hn' hd hin hholds]

/-- A node has siblings before it if the first of them is of another kind. -/
theorem before_ne_nil {xs rest : List Node} {first : Node} (hx : x ∈ withBefore [] xs) (hxs : xs = first :: rest)
    (hne : x.2.kind ≠ first.kind) : x.1 ≠ [] := by
  intro hnil
  obtain ⟨later, hlater⟩ := mem_withBefore (show (x.1, x.2) ∈ withBefore [] xs from hx)
  rw [hnil, hxs] at hlater
  cases hlater
  exact hne rfl

/-- The kinds of nodes that are members or hold them. -/
def isMemberKind (kind : String) : Bool := specKinds.contains kind || kind.endsWith "_spec_list"

/-- The tree of a parsed source. -/
structure Shaped (t : SourceTree) : Prop where
  regular : t.Regular
  formed : ∀ x ∈ t.root.children, ∀ n ∈ x.preorder, Formed n
  settled : ∀ x ∈ t.root.children, ∀ n ∈ x.preorder, Settled t.code n

theorem shaped_of_parse (h : parse t.code = .ok t.root) : Shaped t where
  regular := by
    obtain ⟨-, hplaced, hbounded, -⟩ := placed_of_parse h
    exact regular_of_placed hplaced hbounded
  formed x hx n hn := formed_of_parse h hx hn
  settled x hx n hn := settled_of_parse h hx hn

theorem parseTree_of_parse {code : Bytes} (h : parse code = .ok root) :
    parseTree code = .ok { code := code, root := root } := by
  unfold parseTree
  rw [h]

namespace Shaped

/-- The node is a part of a construct at the top level. -/
theorem part (_h : Shaped t) (hm : m ∈ t.root.children) (hn : n ∈ m.preorder) : n ∈ t.root.preorder :=
  mem_preorder.mpr (.inr ⟨m, hm, hn⟩)

theorem inside (h : Shaped t) (hm : m ∈ t.root.children) (hn : n ∈ m.preorder) :
    m.start ≤ n.start ∧ n.stop ≤ m.stop :=
  within_of_preorder (fun x hx => h.regular.inside x (h.part hm hx)) hn

theorem solid (h : Shaped t) (hm : m ∈ t.root.children) (hn : n ∈ m.preorder) : n.start < n.stop := by
  have hroot := h.regular.solid t.root (mem_preorder.mpr (.inl rfl)) m hm
  rcases exists_parent hn with rfl | ⟨parent, hparent, hchild⟩
  · exact hroot
  · exact h.regular.solid parent (h.part hm hparent) n hchild

/-- A declaration that may be a group begins with a keyword. -/
theorem keyword_of_group {decl : Node} (h : Shaped t) (hm : decl ∈ t.root.children)
    (hkind : groupKinds.contains decl.kind = true) : ∃ word rest, decl.children = word :: rest ∧
      isMemberKind word.kind = false ∧ t.code.inkAt word.start = true := by
  have hself : decl ∈ decl.preorder := mem_preorder.mpr (.inl rfl)
  -- the three groups begin with words of their own; about each word the same four facts are decided
  obtain ⟨text, hopening, htoken, hother, hink⟩ : ∃ text, (decl.kind, text) ∈ openings ∧
      tokenKinds.contains text = true ∧ isMemberKind text = false ∧
      ∃ b rest, Text.encode text = b :: rest ∧ Bytes.isBlank b = false := by
    simp only [groupKinds, List.contains_cons, List.contains_nil, Bool.or_false, Bool.or_eq_true, beq_iff_eq] at hkind
    rcases hkind with hkind | hkind | hkind
    · exact ⟨"const", by rw [hkind]; decide, by decide, by decide +kernel, _, _, rfl, by decide⟩
    · exact ⟨"var", by rw [hkind]; decide, by decide, by decide +kernel, _, _, rfl, by decide⟩
    · exact ⟨"type", by rw [hkind]; decide, by decide, by decide +kernel, _, _, rfl, by decide⟩
  obtain ⟨word, rest, hchildren, hword, hbare⟩ := (h.formed decl hm decl hself).opening _ hopening rfl
  have hpart : word ∈ decl.preorder := preorder_child hself (by rw [hchildren]; exact List.mem_cons_self)
  refine ⟨word, rest, hchildren, hword ▸ hother, ?_⟩
  -- a token that has no name is spelled by its bytes, and the word's first byte is ink
  have hnone := (h.formed decl hm word hpart).token (hword ▸ htoken)
  obtain ⟨later, hspelled⟩ := (h.settled decl hm word hpart).spelled hbare hnone
  obtain ⟨b, bytes, hencode, hdark⟩ := hink
  rw [hword, hencode, List.cons_append] at hspelled
  rw [Bytes.inkAt, ← List.head?_drop, ← hspelled]
  simpa using hdark

/-- What is of another kind than the first of its siblings stands behind it. -/
theorem behind_first {word : Node} {rest : List Node} (h : Shaped t) (hm : m ∈ t.root.children) (hn : n ∈ m.preorder)
    (hchildren : n.children = word :: rest) (hx : x ∈ withBefore [] n.children) (hne : x.2.kind ≠ word.kind) :
    x.1 ≠ [] ∧ word.stop ≤ x.2.start := by
  have hfront := before_ne_nil hx hchildren hne
  refine ⟨hfront, ?_⟩
  obtain ⟨later, hlater⟩ := mem_withBefore (show (x.1, x.2) ∈ withBefore [] n.children from hx)
  rw [List.reverse_nil, List.nil_append, hchildren] at hlater
  obtain ⟨others, last, hothers⟩ := (List.eq_nil_or_concat' x.1).resolve_left hfront
  rw [hothers, List.reverse_append, List.reverse_singleton, List.singleton_append, List.cons_append,
    List.cons.injEq] at hlater
  rw [hlater.1]
  exact ((h.regular.aligned (h.part hm hn)).earlier hx).1 last (by rw [hothers]; simp)

/-- A member stands behind the keyword, and is not the first of its siblings. -/
theorem before_member {decl : Node} (h : Shaped t) (hm : decl ∈ t.root.children)
    (hkind : groupKinds.contains decl.kind = true) (hx : x ∈ specs decl) :
    x.1 ≠ [] ∧ ∃ o, decl.start ≤ o ∧ o < x.2.start ∧ t.code.inkAt o = true := by
  have hself : decl ∈ decl.preorder := mem_preorder.mpr (.inl rfl)
  obtain ⟨word, rest, hchildren, hother, hink⟩ := h.keyword_of_group hm hkind
  rw [specs_def] at hx
  obtain ⟨⟨before, child⟩, hchild, hx⟩ := List.mem_flatMap.mp hx
  have hmem := mem_of_withBefore hchild
  have hword : word ∈ decl.children := by rw [hchildren]; exact List.mem_cons_self
  -- the keyword is before the part that is the member or holds it
  have hbehind (hmember : isMemberKind child.kind = true) : before ≠ [] ∧ word.stop ≤ child.start := by
    refine h.behind_first hm hself hchildren hchild fun hsame => ?_
    have hsame : child.kind = word.kind := hsame
    rw [hsame, hother] at hmember
    cases hmember
  have hstart := (h.inside hm (preorder_child hself hword)).1
  have hsolid := h.solid hm (preorder_child hself hword)
  unfold membersAt at hx
  split at hx
  · rename_i hspec
    obtain ⟨hne, hle⟩ := hbehind (by rw [isMemberKind, ← isSpec, hspec, Bool.true_or])
    rw [List.mem_singleton.mp hx]
    exact ⟨hne, word.start, hstart, by dsimp only; omega, hink⟩
  · split at hx
    · rename_i hlist
      obtain ⟨hx, hspec⟩ := List.mem_filter.mp hx
      obtain ⟨-, hle⟩ := hbehind (by rw [isMemberKind, hlist, Bool.or_true])
      have hpart : child ∈ decl.preorder := preorder_child hself hmem
      obtain ⟨first, others, hfirst, hkind', -⟩ := (h.formed decl hm child hpart).opening ("var_spec_list", "(")
        (by decide) ((h.formed decl hm decl hself).lists hkind child hmem hlist)
      have hin := h.regular.inside child (h.part hm hpart) x.2 (mem_of_withBefore hx)
      refine ⟨before_ne_nil hx hfirst fun hsame => ?_, word.start, hstart, by omega, hink⟩
      rw [isSpec, hsame, hkind'] at hspec
      exact absurd hspec (by decide)
    · cases hx

/-- The member, and its group if it is the only one, begin where a comment on it stands. -/
theorem landing_of_member {decl : Node} (h : Shaped t) (hm : decl ∈ t.root.children) (hn : n ∈ decl.preorder)
    (hx : (x.1, x.2) ∈ withBefore [] n.children) {groupSlot : DocSlot} {indent : String} {sole : Bool}
    {d : Declaration} (hslot : d.slot = specSlot t groupSlot indent sole x.1 x.2) (hstart : d.start = x.2.start)
    (hstop : d.stop = x.2.stop) (hdoc : d.slot.hasDoc = false) (hlands : t.Lands d) :
    d.landing t.code = x.2.start ∨ sole = true ∧ d.landing t.code = decl.start := by
  have hchild := mem_of_withBefore hx
  have hpart : x.2 ∈ decl.preorder := preorder_child hn hchild
  have hsolid := h.solid hm hpart
  have hin := h.inside hm hpart
  rcases landing_of_lands h.regular hm (by omega) (by omega) hlands with hland | ⟨-, hland⟩
  · exact .inl (hland.trans hstart)
  · cases sole with
    | true => exact .inr ⟨rfl, hland⟩
    | false =>
      -- there is only white space from the slot up to the member
      have hblank : ∀ i, d.slot.start ≤ i → i < x.2.start → t.code.inkAt i = false := by
        rw [hslot] at hdoc ⊢
        unfold specSlot at hdoc ⊢
        rw [if_neg Bool.false_ne_true] at hdoc ⊢
        split at hdoc
        · rename_i hstarts
          rw [if_pos hstarts, (lineSlot_of_hasDoc hdoc).1]
          exact Bytes.blank_slice_iff.mp hstarts
        · rename_i hstarts
          rw [if_neg hstarts]
          exact blank_inlineSlot hx (SourceTree.spaced_children h.regular.spaced (h.part hm hn)) indent
      have hink : t.code.inkAt (d.landing t.code) = true := by
        have hbounded := stop_le_of_inside h.regular.inside (h.part hm hpart)
        have hwhole := h.regular.bounded
        exact Bytes.inkAt_inkFrom (show d.landing t.code < t.code.length by omega)
      have hbehind : x.2.start ≤ d.landing t.code := by
        by_contra hlt
        rw [hblank (d.landing t.code) (Bytes.le_inkFrom t.code d.slot.start) (by omega)] at hink
        cases hink
      exact .inl (by omega)

end Shaped

/-! ### Slots without documentation -/

/-- The indent of the slot is the white space of a line. -/
structure Indented (slot : DocSlot) : Prop where
  blank : Bytes.blank (Text.encode slot.indent) = true
  feed : Bytes.newline ∉ Text.encode slot.indent

/-- White space has the same bytes as text. -/
theorem encode_asciiText {bytes : Bytes} (h : Bytes.blank bytes = true) : Text.encode (asciiText bytes) = bytes := by
  have hbyte (b : UInt8) (hb : Bytes.isBlank b = true) : String.utf8EncodeChar (Char.ofNat b.toNat) = [b] := by
    simp only [Bytes.isBlank, Bool.or_eq_true, Bool.and_eq_true, beq_iff_eq, decide_eq_true_eq,
      UInt8.le_iff_toNat_le] at hb
    have hcases : b = 0x20 ∨ b = 0x09 ∨ b = 0x0a ∨ b = 0x0b ∨ b = 0x0c ∨ b = 0x0d := by
      simp only [← UInt8.toNat_inj] at hb ⊢
      simp only [UInt8.reduceToNat] at hb ⊢
      omega
    rcases hcases with rfl | rfl | rfl | rfl | rfl | rfl <;> rfl
  rw [Text.encode, asciiText, String.toList_ofList, Text.encodeChars, List.flatMap_map]
  induction bytes with
  | nil => rfl
  | cons b bytes ih =>
    rw [Bytes.blank, List.all_cons, Bool.and_eq_true] at h
    rw [List.flatMap_cons, hbyte b h.1, ih h.2]
    rfl

/-- The white space before an offset on its line. -/
theorem indented_of_bytes {slot : DocSlot} {bytes : Bytes} (hindent : Text.encode slot.indent = bytes)
    (hblank : Bytes.blank bytes = true) (hfeed : Bytes.newline ∉ bytes) : Indented slot :=
  ⟨by rw [hindent, hblank], by rwa [hindent]⟩

theorem indented_lineSlot (code : Bytes) (before : List Node) (n : Node) : Indented (lineSlot code before n) := by
  have hslot : (lineSlot code before n).indent = asciiText (code.indentOf n.start) := by
    unfold lineSlot
    cases leadingComments code before n <;> rfl
  have hbytes : Bytes.blank (code.indentOf n.start) = true ∧ Bytes.newline ∉ code.indentOf n.start := by
    unfold Bytes.indentOf
    dsimp only
    split
    · refine ⟨by assumption, ?_⟩
      rw [Bytes.beforeOnLine, Bytes.slice_nat]
      exact Bytes.newline_not_mem_line code n.start
    · exact ⟨rfl, List.not_mem_nil⟩
  exact indented_of_bytes (by rw [hslot, encode_asciiText hbytes.1]) hbytes.1 hbytes.2

/-- The indent of the members of a group. -/
theorem indented_inlineSlot (code : Bytes) (before : List Node) (n : Node) (o : Nat) :
    Indented (inlineSlot code before n (asciiText (code.lineIndent o) ++ "\t")) := by
  have hindent (b : UInt8) (hb : b ∈ code.lineIndent o) : Bytes.isIndent b = true :=
    List.mem_takeWhile_imp hb
  have hblank : Bytes.blank (code.lineIndent o) = true := List.all_eq_true.mpr fun b hb => by
    have hb := hindent b hb
    rw [Bytes.isIndent, Bool.or_eq_true, beq_iff_eq, beq_iff_eq] at hb
    rcases hb with rfl | rfl <;> decide
  have hencode : Text.encode (asciiText (code.lineIndent o) ++ "\t") = code.lineIndent o ++ [0x09] := by
    rw [Text.encode, String.toList_append, Text.encodeChars_append, ← Text.encode, encode_asciiText hblank]
    rfl
  refine indented_of_bytes hencode ?_ fun hmem => ?_
  · rw [Bytes.blank, List.all_append, ← Bytes.blank, hblank]
    rfl
  · rcases List.mem_append.mp hmem with hmem | hmem
    · exact absurd (hindent _ hmem) (by decide)
    · exact absurd (List.mem_singleton.mp hmem) (by decide)

/-- The slot of a declaration without documentation: the beginning of a line up to which only white space is before the
    code that a comment in it stands in front of, or the white space before a member of a group. -/
inductive Vacancy (t : SourceTree) (d : Declaration) : Prop
  | line {o : Nat} (hstart : d.slot.start = t.code.lineStart o) (hstop : d.slot.stop = d.slot.start)
      (hinline : d.slot.inline = false) (hland : t.Lands d → d.landing t.code ≤ o)
  | inline {decl : Node} {m : List Node × Node} {indent : String} (hdecl : decl ∈ t.root.children)
      (hkind : groupKinds.contains decl.kind = true) (hm : m ∈ specs decl) (hmany : 2 ≤ (specs decl).length)
      (hstarts : t.code.startsLine m.2.start = false) (hslot : d.slot = inlineSlot t.code m.1 m.2 indent)
      (hd : d.start = m.2.start)

/-- Where a declaration is, and where a comment on it goes. -/
structure Sited (t : SourceTree) (top : Node) (d : Declaration) : Prop where
  node : ∃ n ∈ top.preorder, n.isComment = false ∧ d.start = n.start ∧ d.stop = n.stop ∧
    (top.kind = "method_declaration" → n = top)
  indented : Indented d.slot
  vacancy : d.slot.hasDoc = false → Vacancy t d

section Sited

variable {top : Node} {before : List Node} {d : Declaration}

/-- A declaration with the slot above it. -/
theorem sited_line (h : Shaped t) (hm : top ∈ t.root.children) (hn : n ∈ top.preorder) (hcode : n.isComment = false)
    (hmethod : top.kind = "method_declaration" → n = top) (hslot : d.slot = lineSlot t.code before n)
    (hstart : d.start = n.start) (hstop : d.stop = n.stop) : Sited t top d where
  node := ⟨n, hn, hcode, hstart, hstop, hmethod⟩
  indented := hslot ▸ indented_lineSlot t.code before n
  vacancy hdoc := by
    rw [hslot] at hdoc
    obtain ⟨hfirst, hlast, hinline⟩ := lineSlot_of_hasDoc hdoc
    refine .line (o := n.start) (by rw [hslot, hfirst]) (by rw [hslot, hfirst, hlast]) (by rw [hslot, hinline])
      fun hlands => ?_
    have hin := h.inside hm hn
    have hsolid := h.solid hm hn
    rcases landing_of_lands h.regular hm (by omega) (by omega) hlands with hland | ⟨-, hland⟩ <;> omega

/-- A member of a declaration. -/
theorem sited_member (h : Shaped t) {outer : List Node} (hm : top ∈ t.root.children)
    (hkind : groupKinds.contains top.kind = true) (hx : x ∈ specs top) (hslot : d.slot = memberSlot t outer top x)
    (hstart : d.start = x.2.start) (hstop : d.stop = x.2.stop) : Sited t top d := by
  obtain ⟨parent, hparent, hmem⟩ := mem_specs (show (x.1, x.2) ∈ specs top from hx)
  have hpart : x.2 ∈ top.preorder := preorder_child hparent (mem_of_withBefore hmem)
  have hspec : isSpec x.2 = true := by
    rw [specs_def] at hx
    obtain ⟨z, -, hx⟩ := List.mem_flatMap.mp hx
    unfold membersAt at hx
    split at hx
    · rename_i hz
      rw [List.mem_singleton.mp hx]
      exact hz
    · split at hx
      · exact (List.mem_filter.mp hx).2
      · cases hx
  have hcode := isComment_of_isSpec hspec
  have hmethod : top.kind = "method_declaration" → x.2 = top := fun hmethod => by
    rw [hmethod] at hkind
    exact absurd hkind (by decide)
  have hgroup (hslot : d.slot = lineSlot t.code outer top) : Sited t top d := by
    refine ⟨⟨x.2, hpart, hcode, hstart, hstop, hmethod⟩, hslot ▸ indented_lineSlot t.code outer top, fun hdoc => ?_⟩
    rw [hslot] at hdoc
    obtain ⟨hfirst, hlast, hinline⟩ := lineSlot_of_hasDoc hdoc
    refine .line (o := top.start) (by rw [hslot, hfirst]) (by rw [hslot, hfirst, hlast]) (by rw [hslot, hinline])
      fun hlands => ?_
    have hin := h.inside hm hpart
    have hsolid := h.solid hm hpart
    rcases landing_of_lands h.regular hm (by omega) (by omega) hlands with hland | ⟨-, hland⟩
    · -- the keyword is in front of the member
      obtain ⟨-, o, ho, hlt, hink⟩ := h.before_member hm hkind hx
      have hle := Bytes.lineStart_le t.code top.start
      have hbehind : d.slot.start ≤ o := by rw [hslot, hfirst]; omega
      have hnone := Bytes.inkAt_of_lt_inkFrom hbehind (by rw [← Declaration.landing, hland]; omega)
      rw [hink] at hnone
      cases hnone
    · omega
  unfold memberSlot specSlot at hslot
  dsimp only at hslot
  split at hslot
  · split at hslot
    · split at hslot
      · exact sited_line h hm hpart hcode hmethod hslot hstart hstop
      · exact hgroup hslot
    · exact hgroup hslot
  · rename_i hmany
    split at hslot
    · exact sited_line h hm hpart hcode hmethod hslot hstart hstop
    · rename_i hstarts
      refine ⟨⟨x.2, hpart, hcode, hstart, hstop, hmethod⟩, hslot ▸ indented_inlineSlot .., fun hdoc => ?_⟩
      have hpos := List.length_pos_of_mem hx
      rw [beq_iff_eq] at hmany
      exact .inline hm hkind hx (by omega) (by simpa using hstarts) hslot hstart

/-- The declarations of a construct. -/
abbrev AllSited (t : SourceTree) (top : Node) (ds : List Declaration) : Prop := ∀ d ∈ ds, Sited t top d

theorem sited_interfaceMethods (h : Shaped t) (hm : top ∈ t.root.children)
    (hkind : groupKinds.contains top.kind = true) {owner : String} {body : Node} (hbody : body ∈ top.preorder) :
    Returns (interfaceMethods t owner body) (AllSited t top) := by
  refine .mapM fun x hx => (Returns.of_any _).bind fun name _ => .pure ?_
  obtain ⟨hmem, helem⟩ := List.mem_filter.mp hx
  have hcode : x.2.isComment = false := by
    rw [Node.isComment, beq_eq_false_iff_ne]
    exact (methodKinds_plain helem).1
  refine sited_line h hm (preorder_child hbody (mem_of_withBefore hmem)) hcode (fun hmethod => ?_) rfl rfl rfl
  rw [hmethod] at hkind
  exact absurd hkind (by decide)

theorem sited_typeSpec (h : Shaped t) {outer : List Node} (hm : top ∈ t.root.children)
    (hkind : groupKinds.contains top.kind = true) (hx : x ∈ specs top) (keyword : String) :
    Returns (typeSpec t keyword (memberSlot t outer top x) x.2) (AllSited t top) := by
  refine (Returns.of_any _).bind fun name _ => ?_
  have hself (d : Declaration) (hd : d.slot = memberSlot t outer top x ∧ d.start = x.2.start ∧ d.stop = x.2.stop) :
      Sited t top d := sited_member h hm hkind hx hd.1 hd.2.1 hd.2.2
  dsimp only
  -- the type itself is sited as its member is; an interface adds its methods
  cases hchild : x.2.child? "type" with
  | none => exact .pure (List.forall_mem_singleton.mpr (hself _ ⟨rfl, rfl, rfl⟩))
  | some body =>
    dsimp only
    split
    · obtain ⟨parent, hparent, hmem⟩ := mem_specs (show (x.1, x.2) ∈ specs top from hx)
      have hbody : body ∈ top.preorder := preorder_child (preorder_child hparent (mem_of_withBefore hmem))
        (List.mem_of_find?_eq_some hchild)
      exact (sited_interfaceMethods h hm hkind hbody).bind fun ds hds =>
        .pure (List.forall_mem_cons.mpr ⟨hself _ ⟨rfl, rfl, rfl⟩, hds⟩)
    · exact .pure (List.forall_mem_singleton.mpr (hself _ ⟨rfl, rfl, rfl⟩))

theorem sited_valueSpec (h : Shaped t) {outer : List Node} (hm : top ∈ t.root.children)
    (hkind : groupKinds.contains top.kind = true) (hx : x ∈ specs top) (keyword : String) :
    Returns (valueSpec t keyword (memberSlot t outer top x) x.2) (AllSited t top) := by
  refine (Returns.of_any _).bind fun names _ => ?_
  split
  · exact .pure (List.forall_mem_nil _)
  · exact .pure (List.forall_mem_singleton.mpr (sited_member h hm hkind hx rfl rfl rfl))

theorem sited_group (h : Shaped t) (hm : top ∈ t.root.children) (hkind : groupKinds.contains top.kind = true)
    (keyword : String) (outer : List Node) : Returns (group t keyword outer top) (AllSited t top) := by
  refine Returns.bind (P := fun found => ∀ ds ∈ found, AllSited t top ds) (.mapM fun x hx => ?_)
    fun found hfound => .pure fun d hd => ?_
  · dsimp only
    split
    · exact sited_typeSpec h hm hkind hx keyword
    · exact sited_valueSpec h hm hkind hx keyword
  · obtain ⟨ds, hds, hd⟩ := List.mem_flatten.mp hd
    exact hfound ds hds d hd

theorem sited_topLevel (h : Shaped t) (hm : top ∈ t.root.children) (outer : List Node) :
    Returns (topLevel t outer top) (AllSited t top) := by
  have hself : top ∈ top.preorder := mem_preorder.mpr (.inl rfl)
  -- what the branch reads as code is no comment, which `sited_line` asks for
  have hcode {kind : String} (hkind : (top.kind == kind) = true) (hother : kind ≠ "comment") :
      top.isComment = false := by
    rw [Node.isComment, beq_iff_eq.mp hkind]
    simpa using hother
  unfold topLevel
  split
  · rename_i hkind
    refine Returns.bind (P := Sited t top) ?_ fun d hd => .pure (List.forall_mem_singleton.mpr hd)
    exact (Returns.of_any _).bind fun name _ => .pure
      (sited_line h hm hself (hcode hkind (by decide)) (fun _ => rfl) rfl rfl rfl)
  · split
    · rename_i hkind
      refine Returns.bind (P := fun d? : Option Declaration => ∀ d ∈ d?, Sited t top d) ?_
        fun d? hd => .pure fun d hmem => hd d (by simpa using hmem)
      refine (Returns.of_any _).bind fun owner? _ => ?_
      -- a method whose receiver names no type is not declared
      split
      · exact .pure fun d hd => by cases hd
      · refine (Returns.of_any _).bind fun name _ => .pure fun d hd => ?_
        cases hd
        exact sited_line h hm hself (hcode hkind (by decide)) (fun _ => rfl) rfl rfl rfl
    · split
      -- the three groups, told apart by their kind, are sited by the same lemma
      · rename_i hkind
        exact sited_group h hm (by rw [beq_iff_eq.mp hkind]; decide) _ outer
      · split
        · rename_i hkind
          exact sited_group h hm (by rw [beq_iff_eq.mp hkind]; decide) _ outer
        · split
          · rename_i hkind
            exact sited_group h hm (by rw [beq_iff_eq.mp hkind]; decide) _ outer
          · exact .pure (List.forall_mem_nil _)

/-- **Where the declarations of a source are**, and where comments on them go. -/
theorem sited_declarations (h : Shaped t) :
    Returns (declarations t) fun ds => ∀ d ∈ ds, ∃ top ∈ t.root.children, Sited t top d := by
  refine Returns.bind (P := fun found => ∀ ds ∈ found, ∀ d ∈ ds, ∃ top ∈ t.root.children, Sited t top d)
    (.mapM fun x hx => ?_) fun found hfound => .pure fun d hd => ?_
  · have hm := mem_of_withBefore (show (x.1, x.2) ∈ withBefore [] t.root.children from hx)
    exact fun ds hds d hd => ⟨x.2, hm, sited_topLevel h hm x.1 ds hds d hd⟩
  · obtain ⟨ds, hds, hd⟩ := List.mem_flatten.mp hd
    exact hfound ds hds d hd

end Sited

end Docsmith.Go
