import Docsmith.Proofs.Doc.Places
import Docsmith.Proofs.Go.Groups
import Docsmith.Proofs.Patch.Alike
import Docsmith.Proofs.Source.Kept

namespace Docsmith.Go

open Text

/-!
# Members of Go groups

The documentation of a member of a group is what stands between it and the member before, whatever the
layout, and documenting it leaves the others alone.

* `memberSlot`: the slot of a member, and `ofGroup_topLevel`: it is that of its declaration.
* `Isolated`: the slot of a member lies between the member and the one before, and depends on nothing else;
  `isolated_of_follows`: all of them are so.
* `members_isolated`: so no member of a group gets in the way of another.
-/

variable {t : SourceTree} {decl spec previous : Node} {before outer between others : List Node}
  {m : List Node × Node}

/-! ### The slots of members -/

/-- The slot of a member of a declaration. -/
def memberSlot (t : SourceTree) (outer : List Node) (decl : Node) (m : List Node × Node) : DocSlot :=
  specSlot t (lineSlot t.code outer decl) (asciiText (t.code.lineIndent decl.start) ++ "\t")
    ((specs decl).length == 1) m.1 m.2

/-- The declaration is of a member of the group, with the slot of this member, or it is a method of an
    interface. -/
def OfGroup (t : SourceTree) (outer : List Node) (decl : Node) (d : Declaration) : Prop :=
  d.kind = .interfaceMethod ∨ ∃ m ∈ specs decl, d.slot = memberSlot t outer decl m ∧
    d.start = m.2.start ∧ d.stop = m.2.stop

theorem ofGroup_typeSpec {m : List Node × Node} (hm : m ∈ specs decl) (keyword : String) :
    Returns (typeSpec t keyword (memberSlot t outer decl m) m.2) fun ds =>
      ∀ d ∈ ds, OfGroup t outer decl d := by
  refine (Returns.of_any _).bind fun name _ => ?_
  dsimp only
  -- the member itself has its own slot; an interface adds methods, which no group claims
  cases m.2.child? "type" with
  | none =>
    refine .pure fun d hd => .inr ⟨m, hm, ?_⟩
    rw [List.mem_singleton.mp hd]
    exact ⟨rfl, rfl, rfl⟩
  | some body =>
    dsimp only
    split
    · have hmethods : Returns (interfaceMethods t name body) fun ds =>
          ∀ d ∈ ds, d.kind = .interfaceMethod :=
        .mapM fun x _ => (Returns.of_any _).bind fun name _ => .pure rfl
      refine hmethods.bind fun methods hmethods => .pure fun d hd => ?_
      rcases List.mem_cons.mp hd with rfl | hd
      · exact .inr ⟨m, hm, rfl, rfl, rfl⟩
      · exact .inl (hmethods d hd)
    · refine .pure fun d hd => .inr ⟨m, hm, ?_⟩
      rw [List.mem_singleton.mp hd]
      exact ⟨rfl, rfl, rfl⟩

theorem ofGroup_valueSpec {m : List Node × Node} (hm : m ∈ specs decl) (keyword : String) :
    Returns (valueSpec t keyword (memberSlot t outer decl m) m.2) fun ds =>
      ∀ d ∈ ds, OfGroup t outer decl d := by
  refine (Returns.of_any _).bind fun names _ => ?_
  split
  · exact .pure fun d hd => by cases hd
  · refine .pure fun d hd => .inr ⟨m, hm, ?_⟩
    rw [List.mem_singleton.mp hd]
    exact ⟨rfl, rfl, rfl⟩

theorem ofGroup_group (t : SourceTree) (keyword : String) (outer : List Node) (decl : Node) :
    Returns (group t keyword outer decl) fun ds => ∀ d ∈ ds, OfGroup t outer decl d := by
  refine Returns.bind (P := fun found : List (List Declaration) =>
    ∀ ds ∈ found, ∀ d ∈ ds, OfGroup t outer decl d) (.mapM fun m hm => ?_)
    fun found hfound => .pure fun d hd => ?_
  · dsimp only
    split
    · exact ofGroup_typeSpec hm keyword
    · exact ofGroup_valueSpec hm keyword
  · obtain ⟨ds, hds, hd⟩ := List.mem_flatten.mp hd
    exact hfound ds hds d hd

/-- **What a group declares** are its members, each with its slot, and methods of interfaces. -/
theorem ofGroup_topLevel (t : SourceTree) (outer : List Node) (h : Grouped decl) :
    Returns (topLevel t outer decl) fun ds => ∀ d ∈ ds, OfGroup t outer decl d := by
  have hkind := h.kind
  simp only [groupKinds, List.mem_cons, List.not_mem_nil, or_false] at hkind
  unfold topLevel
  rcases hkind with hkind | hkind | hkind
  all_goals
    rw [hkind]
    exact ofGroup_group t _ outer decl

/-! ### Members apart -/

/-- The comments directly above a member that are behind the member before, or the parenthesis. -/
def ownComments (code : Bytes) (between : List Node) (spec : Node) : List Node :=
  leadingFrom code spec.row (between.filter Node.named)

/-- The slot of a member lies between the member and the one before, or the parenthesis, and is what it would
    be if nothing but this were before it.  The member has documentation if it begins its line and there are
    comments directly above, each of which begins a line behind the one before. -/
structure Isolated (t : SourceTree) (indent : String) (slot : DocSlot) (between : List Node)
    (previous spec : Node) : Prop where
  after : previous.stop ≤ slot.start
  ordered : slot.start ≤ slot.stop
  ahead : slot.stop ≤ spec.start
  alone : ∀ groupSlot, slot = specSlot t groupSlot indent false (between ++ [previous]) spec
  hasDoc : slot.hasDoc = (t.code.startsLine spec.start && !(ownComments t.code between spec).isEmpty)
  own : ∀ c ∈ ownComments t.code between spec, c ∈ between ∧ c.isComment = true ∧
    previous.stop ≤ t.code.lineStart c.start

/-- The comments above a member do not go past the one before. -/
theorem Follows.leadingComments_eq (h : Follows before between previous others) (code : Bytes) (spec : Node) :
    leadingComments code before spec = ownComments code between spec := by
  rw [leadingComments, h.split, List.filter_append, leadingFrom_append h.halts]
  rfl

/-- Nothing before the previous member matters for the slot of a member. -/
theorem Follows.specSlot_eq (h : Follows before between previous others) (t : SourceTree)
    (groupSlot groupSlot' : DocSlot) (indent : String) (spec : Node) :
    specSlot t groupSlot indent false before spec
      = specSlot t groupSlot' indent false (between ++ [previous]) spec := by
  -- cut to the last sibling, the row follows by itself with nothing before it
  have hcut : Follows (between ++ [previous]) between previous [] := by
    refine ⟨rfl, h.previous_eq, h.between, fun n hn => ?_⟩
    have hhalts := h.halts
    by_cases hnamed : previous.named = true
    · rw [List.filter_cons_of_pos hnamed] at hn hhalts
      cases hn
      exact hhalts _ rfl
    · rw [List.filter_cons_of_neg hnamed] at hn
      cases hn
  unfold specSlot
  rw [if_neg Bool.false_ne_true, if_neg Bool.false_ne_true]
  -- on a line of its own the member is documented above, and there only the comments before it count
  split
  · unfold lineSlot
    rw [h.leadingComments_eq, hcut.leadingComments_eq]
  · unfold inlineSlot
    rw [h.split]
    cases between <;> rfl

/-- What is directly above a member is behind the one before. -/
theorem Follows.mem_ownComments {xs : List Node} {c : Node} (hfollows : Follows before between previous others)
    (h : Aligned t.code xs) (hmem : (before, spec) ∈ withBefore [] xs)
    (hc : c ∈ ownComments t.code between spec) : c ∈ between ∧ c.isComment = true ∧
      t.code.startsLine c.start = true ∧ previous.stop ≤ c.start := by
  obtain ⟨run, rest, hsplit, hrun, hcomments, -⟩ :=
    leadingFrom_spec t.code spec.row (between.filter Node.named)
  rw [ownComments, hrun, List.mem_reverse] at hc
  have hbetween : c ∈ between :=
    (List.mem_filter.mp (hsplit ▸ List.mem_append_left _ hc : c ∈ between.filter Node.named)).1
  have hpair := (h.earlier hmem).2
  rw [hfollows.split] at hpair
  have hlater := (List.pairwise_append.mp hpair).2.2 c hbetween previous List.mem_cons_self
  exact ⟨hbetween, (hcomments c hc).1, (hcomments c hc).2, hlater⟩

/-- **The slot of a member is isolated** by the member before. -/
theorem isolated_of_follows {xs : List Node} (h : Aligned t.code xs) (hmem : (before, spec) ∈ withBefore [] xs)
    (hfollows : Follows before between previous others) (groupSlot : DocSlot) (indent : String) :
    Isolated t indent (specSlot t groupSlot indent false before spec) between previous spec := by
  have hprevious : previous ∈ before := by rw [hfollows.split]; simp
  have hown (c : Node) (hc : c ∈ ownComments t.code between spec) := hfollows.mem_ownComments h hmem hc
  have hplace : previous.stop ≤ (specSlot t groupSlot indent false before spec).start ∧
      (specSlot t groupSlot indent false before spec).start
        ≤ (specSlot t groupSlot indent false before spec).stop ∧
      (specSlot t groupSlot indent false before spec).stop ≤ spec.start ∧
      (specSlot t groupSlot indent false before spec).hasDoc
        = (t.code.startsLine spec.start && !(ownComments t.code between spec).isEmpty) := by
    unfold specSlot
    rw [if_neg Bool.false_ne_true]
    -- the member begins its line, or it shares the line with what is before it
    split
    · rename_i hstarts
      obtain ⟨hordered, hstop, hafter⟩ := lineSlot_spec h hmem hstarts
      refine ⟨hafter previous hprevious fun c hc => ?_, hordered, hstop, ?_⟩
      · rw [hfollows.leadingComments_eq] at hc
        exact (hown c hc).2.2.2
      · rw [← hfollows.leadingComments_eq, hstarts, Bool.true_and]
        unfold lineSlot
        cases leadingComments t.code before spec <;> rfl
    · rename_i hstarts
      obtain ⟨hordered, hstop, hafter⟩ := inlineSlot_spec h hmem indent
      refine ⟨hafter previous hprevious, hordered, Nat.le_of_eq hstop, ?_⟩
      rw [Bool.not_eq_true] at hstarts
      rw [hstarts]
      rfl
  obtain ⟨hafter, hordered, hahead, hhasDoc⟩ := hplace
  refine ⟨hafter, hordered, hahead, fun groupSlot' => hfollows.specSlot_eq t _ _ indent spec, hhasDoc, ?_⟩
  intro c hc
  obtain ⟨hbetween, hcomment, hstarts, hlater⟩ := hown c hc
  have hbefore : c ∈ before := by
    rw [hfollows.split]
    exact List.mem_append_left _ hbetween
  exact ⟨hbetween, hcomment,
    h.le_lineStart (mem_before hmem hprevious) (mem_before hmem hbefore) hlater hstarts⟩

/-- The members of a declaration stand among the children of one of its nodes. -/
theorem memberSiblings_eq (decl : Node) : ∃ n ∈ decl.preorder, n.children = memberSiblings decl := by
  unfold memberSiblings
  cases hlist : decl.children.find? (·.kind.endsWith "_spec_list") with
  | none => exact ⟨decl, mem_preorder.mpr (.inl rfl), rfl⟩
  | some list =>
    exact ⟨list, mem_preorder.mpr (.inr ⟨list, List.mem_of_find?_eq_some hlist,
      mem_preorder.mpr (.inl rfl)⟩), rfl⟩

/-- A member is a construct and no comment. -/
theorem Grouped.named_of_mem (h : Grouped decl) (hm : m ∈ specs decl) :
    m.2.named = true ∧ m.2.isComment = false := by
  obtain ⟨hspec, later, hlater⟩ := h.mem_specs hm
  exact ⟨by rw [h.parts m.2 (by rw [hlater]; simp), hspec, Bool.true_or], isComment_of_isSpec hspec⟩

/-- A member ends before the slots of the later members begin. -/
theorem stop_le_of_follows {xs : List Node} {n : Node} (h : Aligned t.code xs)
    (hmem : (before, spec) ∈ withBefore [] xs) (hfollows : Follows before between previous others)
    (hn : n ∈ before) (hnamed : n.named = true) (hcomment : n.isComment = false) :
    n.stop ≤ previous.stop := by
  rw [hfollows.split] at hn
  rcases List.mem_append.mp hn with hn | hn
  · rw [hfollows.between n hn, hcomment] at hnamed
    cases hnamed
  · rcases List.mem_cons.mp hn with rfl | hn
    · exact Nat.le_refl _
    · obtain ⟨-, hpair⟩ := h.earlier hmem
      rw [hfollows.split] at hpair
      have hearlier := List.rel_of_pairwise_cons (List.pairwise_append.mp hpair).2.1 hn
      have hsolid := h.solid previous (mem_before hmem (by rw [hfollows.split]; simp))
      omega

/-- **The members of a group are isolated** from one another and from the group, whatever its layout, if
    no comment is before the parenthesis.  The slot of each of them lies between the member and the one before
    it, and it has documentation if there are comments directly above it that are behind the one before.  So
    the slots of two members have different keys and do not overlap; and an edit at the slot of one leaves
    the documentation and the code of the others as they are. -/
theorem members_isolated (h : t.Regular) (hclean : t.edits.entries = [])
    (hdecl : (outer, decl) ∈ withBefore [] t.root.children) (hgrouped : Grouped decl)
    (hmany : 2 ≤ (specs decl).length)
    (hplain : ∀ n ∈ (memberSiblings decl).takeWhile (!isOpening ·), n.isComment = false) :
    Returns (topLevel t outer decl) (fun ds => ∀ d ∈ ds, OfGroup t outer decl d) ∧
    (∀ m ∈ specs decl, ∃ between previous others, Follows m.1 between previous others ∧
      Isolated t (asciiText (t.code.lineIndent decl.start) ++ "\t") (memberSlot t outer decl m) between
        previous m.2) ∧
    (specs decl).Pairwise fun m m' =>
      let s := memberSlot t outer decl m
      let s' := memberSlot t outer decl m'
      s.key ≠ s'.key ∧ s.stop ≤ m.2.start ∧ m.2.stop ≤ s'.start ∧
        t.Leaves s.key s.start s.stop s'.start m'.2.stop ∧
        t.Leaves s'.key s'.start s'.stop s.start m.2.stop := by
  obtain ⟨n, hn, hchildren⟩ := memberSiblings_eq decl
  have hpart : n ∈ t.root.preorder :=
    preorder_trans _ (preorder_child (mem_preorder.mpr (.inl rfl)) (mem_of_withBefore hdecl)) hn
  have haligned : Aligned t.code (memberSiblings decl) := hchildren ▸ h.aligned hpart
  have hamong : ∀ m ∈ specs decl, (m.1, m.2) ∈ withBefore [] (memberSiblings decl) := fun m hm => by
    rw [hgrouped.specs_eq] at hm
    exact (List.mem_filter.mp hm).1
  have hslot : ∀ m ∈ specs decl, ∃ between previous others, Follows m.1 between previous others ∧
      Isolated t (asciiText (t.code.lineIndent decl.start) ++ "\t") (memberSlot t outer decl m) between
        previous m.2 := by
    intro m hm
    obtain ⟨between, previous, others, hfollows⟩ := hgrouped.follows hplain hm
    refine ⟨between, previous, others, hfollows, ?_⟩
    have hsole : ((specs decl).length == 1) = false := by simp; omega
    rw [memberSlot, hsole]
    exact isolated_of_follows haligned (hamong m hm) hfollows _ _
  refine ⟨ofGroup_topLevel t outer hgrouped, hslot, ?_⟩
  have hpair : (specs decl).Pairwise fun m m' => m.2 ∈ m'.1 := by
    rw [hgrouped.specs_eq]
    exact (pairwise_withBefore [] _).sublist List.filter_sublist
  refine List.Pairwise.imp_of_mem (fun {m m'} hm hm' hbefore => ?_) hpair
  obtain ⟨_, _, _, _, hisolated⟩ := hslot m hm
  obtain ⟨between, previous, others, hfollows, hisolated'⟩ := hslot m' hm'
  obtain ⟨hnamed, hcomment⟩ := hgrouped.named_of_mem hm
  have hle := stop_le_of_follows haligned (hamong m' hm') hfollows hbefore hnamed hcomment
  -- the offsets of both members in their order
  have hordered := hisolated.ordered
  have hahead := hisolated.ahead
  have hsolid := haligned.solid m.2 (mem_of_withBefore (hamong m hm))
  have hafter := hisolated'.after
  have hordered' := hisolated'.ordered
  have hahead' := hisolated'.ahead
  have hsolid' := haligned.solid m'.2 (mem_of_withBefore (hamong m' hm'))
  have hbounded' := haligned.bounded m'.2 (mem_of_withBefore (hamong m' hm'))
  dsimp only
  refine ⟨fun hkey => ?_, hahead, by omega, SourceTree.leaves_behind hclean (by omega) (by omega),
    SourceTree.leaves_before hclean (by omega) (by omega) (by omega)⟩
  rw [DocSlot.key_inj] at hkey
  omega

/-- A group of four constants in a parsed source, two of them on one line and two with comments: the slots of its
    members stand apart. -/
theorem members_isolated_in_a_source :
    let code := Text.encode
      "package p\n\n// Limits.\nconst (\n\t// A is first.\n\tA = 1 // one\n\tB = 2; C = 3\n\t/* Four. */\n\tD = 4\n)\n"
    ∃ t outer decl, parseTree code = .ok t ∧ (outer, decl) ∈ withBefore [] t.root.children ∧
      t.Regular ∧ Grouped decl ∧
      (specs decl).map (fun m => (memberSlot t outer decl m).hasDoc) = [true, false, false, true] ∧
      (specs decl).Pairwise fun m m' =>
        (memberSlot t outer decl m).stop ≤ m.2.start ∧ m.2.stop ≤ (memberSlot t outer decl m').start := by
  intro code
  have hall : (parseTree code).toOption.any (fun t => t.edits.entries.isEmpty &&
      (withBefore [] t.root.children).any fun x => groupKinds.contains x.2.kind &&
        ((memberSiblings x.2).takeWhile (!isOpening ·)).all (!Node.isComment ·) &&
        (specs x.2).map (fun m => (memberSlot t x.1 x.2 m).hasDoc) == [true, false, false, true]) = true := by
    decide +kernel
  obtain ⟨t, hparse, ht⟩ := exists_of_any hall
  rw [Bool.and_eq_true, List.isEmpty_iff, List.any_eq_true] at ht
  obtain ⟨hclean, ⟨outer, decl⟩, hmem, hdecl⟩ := ht
  simp only [Bool.and_eq_true, List.contains_iff_mem, beq_iff_eq] at hdecl
  obtain ⟨⟨hkind, hplain⟩, hdocs⟩ := hdecl
  have hmany : (specs decl).length = 4 := by
    rw [← List.length_map (fun m => (memberSlot t outer decl m).hasDoc), hdocs]
    rfl
  have hregular := regular_of_parse hparse
  have hgrouped := grouped_of_parse hparse (mem_of_withBefore hmem) hkind (by omega)
  obtain ⟨-, -, hpair⟩ := members_isolated hregular hclean hmem hgrouped (by omega) fun n hn => by
    simpa using List.all_eq_true.mp hplain n hn
  exact ⟨t, outer, decl, hparse, hmem, hregular, hgrouped, hdocs,
    hpair.imp fun h => ⟨h.2.1, h.2.2.1⟩⟩

end Docsmith.Go
