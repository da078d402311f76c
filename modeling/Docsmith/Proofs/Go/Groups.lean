import Docsmith.Proofs.Go.Regular

namespace Docsmith

/-!
# Groups of Go sources

A group declares several constants, variables or types between parentheses.  Apart from bare tokens there are
only members and comments in it.

* `Go.Grouped`: what the parts of a group are.
* `Go.Follows`, `Go.Grouped.follows`: the member before another one, or the parenthesis.
* `Go.Parenthesised`, `Go.Declares`: what the grammar makes of a declaration.
* `Go.grouped_of_parse`: the declarations of several members in a parsed source are groups.
-/

/-- Two members at which a list is cut are one, or one of them is before the other. -/
theorem split_cases {α : Type} {l r xs ys : List α} {a b : α} (h : l ++ a :: r = xs ++ b :: ys) :
    l = xs ∧ a = b ∨ a ∈ xs ∨ b ∈ l ∧ a ∈ ys := by
  rcases List.append_eq_append_iff.mp h with ⟨mid, hxs, hrest⟩ | ⟨mid, hl, hrest⟩
  · cases mid with
    | nil =>
      rw [List.nil_append, List.cons.injEq] at hrest
      exact .inl ⟨by rw [hxs, List.append_nil], hrest.1⟩
    | cons x mid =>
      rw [List.cons_append, List.cons.injEq] at hrest
      exact .inr (.inl (by rw [hxs, hrest.1]; simp))
  · cases mid with
    | nil =>
      rw [List.nil_append, List.cons.injEq] at hrest
      exact .inl ⟨by rw [hl, List.append_nil], hrest.1.symm⟩
    | cons x mid =>
      rw [List.cons_append, List.cons.injEq] at hrest
      exact .inr (.inr ⟨by rw [hl, hrest.1]; simp, by rw [hrest.2]; simp⟩)

namespace Go

open Grammar Text

variable {decl : Node} {m : List Node × Node} {s s' : State} {xs : List Node}

/-! ### The parts of a group -/

/-- The node declares one member of a group. -/
def isSpec (n : Node) : Bool := specKinds.contains n.kind

/-- The node is the parenthesis that opens a group. -/
def isOpening (n : Node) : Bool := n.kind == "("

/-- The nodes among which the members of a declaration stand. -/
def memberSiblings (decl : Node) : List Node :=
  match decl.children.find? (·.kind.endsWith "_spec_list") with
  | some list => list.children
  | none => decl.children

/-- The parts of a group: one parenthesis opens it, and the members stand behind it.  Apart from bare
    tokens there are only the members and comments. -/
structure Grouped (decl : Node) : Prop where
  kind : decl.kind ∈ groupKinds
  specs_eq : specs decl = (withBefore [] (memberSiblings decl)).filter fun x => isSpec x.2
  opening : ((memberSiblings decl).filter isOpening).length = 1
  behind : ∀ n ∈ (memberSiblings decl).takeWhile (!isOpening ·), isSpec n = false
  parts : ∀ n ∈ memberSiblings decl, n.named = (isSpec n || n.isComment)

/-- The parenthesis of a group with what is before and behind it. -/
theorem Grouped.split (h : Grouped decl) : ∃ front paren rest,
    memberSiblings decl = front ++ paren :: rest ∧ isOpening paren = true ∧
      (memberSiblings decl).takeWhile (!isOpening ·) = front ∧
      ∀ n ∈ front ++ rest, isOpening n = false := by
  obtain ⟨paren, hparen⟩ := List.length_eq_one_iff.mp h.opening
  obtain ⟨front, rest, hsplit, hfront, hopening, hrest⟩ := List.filter_eq_cons_iff.mp hparen
  refine ⟨front, paren, rest, hsplit, hopening, ?_, fun n hn => ?_⟩
  · rw [hsplit, List.takeWhile_append_of_pos fun n hn => by simpa using hfront n hn,
      List.takeWhile_cons_of_neg (by simp [hopening]), List.append_nil]
  · rcases List.mem_append.mp hn with hn | hn
    · simpa using hfront n hn
    · simpa using List.filter_eq_nil_iff.mp hrest n hn

/-- A member is no comment. -/
theorem isComment_of_isSpec {n : Node} (h : isSpec n = true) : n.isComment = false := by
  simp only [isSpec, specKinds, List.contains_cons, List.contains_nil, Bool.or_false, Bool.or_eq_true,
    beq_iff_eq] at h
  rcases h with h | h | h | h <;> simp [Node.isComment, h]

/-- A parenthesis is neither a member nor a comment. -/
theorem isSpec_of_isOpening {n : Node} (h : isOpening n = true) : isSpec n = false ∧ n.isComment = false := by
  simp only [isOpening, beq_iff_eq] at h
  simp [isSpec, specKinds, Node.isComment, h]

/-- A member and the siblings before it. -/
theorem Grouped.mem_specs (h : Grouped decl) (hm : m ∈ specs decl) :
    isSpec m.2 = true ∧ ∃ later, memberSiblings decl = m.1.reverse ++ m.2 :: later := by
  rw [h.specs_eq] at hm
  obtain ⟨hmem, hspec⟩ := List.mem_filter.mp hm
  exact ⟨hspec, mem_withBefore hmem⟩

/-- The parenthesis is before each member. -/
theorem Grouped.exists_opening (h : Grouped decl) (hm : m ∈ specs decl) :
    ∃ paren ∈ m.1, isOpening paren = true := by
  obtain ⟨hspec, later, hlater⟩ := h.mem_specs hm
  obtain ⟨front, paren, rest, hsplit, hparen, hfront, -⟩ := h.split
  have hbehind := h.behind
  rw [hfront] at hbehind
  rcases split_cases (hlater.symm.trans hsplit) with ⟨-, heq⟩ | hmember | ⟨hbefore, -⟩
  · rw [heq, (isSpec_of_isOpening hparen).1] at hspec
    cases hspec
  · rw [hbehind m.2 hmember] at hspec
    cases hspec
  · exact ⟨paren, List.mem_reverse.mp hbefore, hparen⟩

/-- Nothing but bare tokens stands before the parenthesis, if no comment does. -/
theorem Grouped.bare_before (h : Grouped decl)
    (hplain : ∀ n ∈ (memberSiblings decl).takeWhile (!isOpening ·), n.isComment = false)
    {paren : Node} {later : List Node} (hsplit : memberSiblings decl = xs ++ paren :: later)
    (hparen : isOpening paren = true) : ∀ n ∈ paren :: xs, n.named = false := by
  obtain ⟨front, _, rest, hsplit', -, hfront, hother⟩ := h.split
  -- there is only one parenthesis
  have hxs : xs = front := by
    rcases split_cases (hsplit.symm.trans hsplit') with ⟨heq, -⟩ | hearly | ⟨-, hlate⟩
    · exact heq
    · rw [hother paren (List.mem_append_left _ hearly)] at hparen
      cases hparen
    · rw [hother paren (List.mem_append_right _ hlate)] at hparen
      cases hparen
  have hbehind := h.behind
  rw [hfront, ← hxs] at hplain hbehind
  intro n hn
  rcases List.mem_cons.mp hn with rfl | hn
  · obtain ⟨hspec, hcomment⟩ := isSpec_of_isOpening hparen
    rw [h.parts n (by rw [hsplit]; simp), hspec, hcomment]
    rfl
  · rw [h.parts n (by rw [hsplit]; exact List.mem_append_left _ hn), hbehind n hn, hplain n hn]
    rfl

/-- A member stands between the one before, or the parenthesis, and what is behind it.  Between the two are
    bare tokens and comments, and no construct is before the parenthesis if no comment is. -/
structure Follows (before between : List Node) (previous : Node) (others : List Node) : Prop where
  split : before = between ++ previous :: others
  previous_eq : isSpec previous = true ∨ isOpening previous = true
  between : ∀ n ∈ between, n.named = n.isComment
  halts : ∀ n ∈ ((previous :: others).filter Node.named).head?, n.isComment = false

/-- **The member before another one**, or the parenthesis before the first. -/
theorem Grouped.follows (h : Grouped decl)
    (hplain : ∀ n ∈ (memberSiblings decl).takeWhile (!isOpening ·), n.isComment = false)
    (hm : m ∈ specs decl) : ∃ between previous others, Follows m.1 between previous others := by
  obtain ⟨-, later, hlater⟩ := h.mem_specs hm
  obtain ⟨paren, hparen, hopening⟩ := h.exists_opening hm
  -- the nearest member or parenthesis before the member
  have hsome : (m.1.find? fun n => isSpec n || isOpening n).isSome = true :=
    List.find?_isSome.mpr ⟨paren, hparen, by simp [hopening]⟩
  obtain ⟨previous, hprevious⟩ := Option.isSome_iff_exists.mp hsome
  obtain ⟨hkind, between, others, hbefore, hbetween⟩ := List.find?_eq_some_iff_append.mp hprevious
  have hall : ∀ n ∈ m.1, n ∈ memberSiblings decl := fun n hn => by
    rw [hlater]
    exact List.mem_append_left _ (List.mem_reverse.mpr hn)
  refine ⟨between, previous, others, hbefore, by simpa using hkind, fun n hn => ?_, ?_⟩
  · have hnone := hbetween n hn
    simp only [Bool.not_eq_true', Bool.or_eq_false_iff] at hnone
    rw [h.parts n (hall n (by rw [hbefore]; exact List.mem_append_left _ hn)), hnone.1, Bool.false_or]
  · by_cases hspec : isSpec previous = true
    · -- a member is a construct and no comment
      have hnamed : previous.named = true := by
        rw [h.parts previous (hall previous (by simp [hbefore])), hspec, Bool.true_or]
      rw [List.filter_cons_of_pos hnamed]
      rintro n ⟨⟩
      exact isComment_of_isSpec hspec
    · -- nothing but bare tokens is before the parenthesis
      have hsplit : memberSiblings decl = others.reverse ++ previous :: (between.reverse ++ m.2 :: later) := by
        rw [hlater, hbefore]
        simp
      have hbare := h.bare_before hplain hsplit (by simpa [hspec] using hkind)
      rw [List.filter_eq_nil_iff.mpr fun n hn => by simp [hbare n (by simpa using hn)]]
      simp

/-! ### What the grammar makes of a declaration -/

/-- The kind is that of a part of a group: a member, or a bare token that opens no other group. -/
def isGroupPart (kind : String) (named : Bool) (_ : String) : Bool :=
  kind != "(" && named == specKinds.contains kind && !kind.endsWith "_spec_list"

/-- The sorts of the nodes of a terminal are admitted. -/
def leafSort (t : Terminal) (sort : String → Bool → String → Bool) : Bool :=
  t.form.sorts.all fun (kind, named) => sort kind named ""

/-- All nodes that a rule yields, comments apart, are of the sorts that a check admits. -/
theorem ofSort_of_yields {sort : String → Bool → String → Bool} {bound : Bool} {a : Phrase}
    (h : table.Yields bound a s xs s') {depth : Nat} (hsort : table.emits leafSort depth sort a = true) :
    ∀ x ∈ xs, OfSort sort x := by
  refine h.of_emits ?_ hsort
  intro m t s xs s' sort hread hleaf x hx
  obtain ⟨-, hrole, hcomment | hmem⟩ := readTerminal_sorted hread x hx
  · exact .inl (by simp [isExtra, hcomment.1])
  · exact .inr (.inr (by rw [hrole]; exact List.all_eq_true.mp hleaf _ hmem))

/-- Some comments, a bare token behind them, and the rest. -/
structure Begun (xs comments : List Node) (token : Node) (rest : List Node) : Prop where
  split : xs = comments ++ token :: rest
  extras : ∀ c ∈ comments, isExtra c = true
  code : isCodeKind token.kind = true
  bare : token.named = false

theorem Begun.append {ys comments rest : List Node} {token : Node} (h : Begun xs comments token rest) :
    Begun (xs ++ ys) comments token (rest ++ ys) :=
  { h with split := by rw [h.split, List.append_assoc, List.cons_append] }

/-- What is made of a bare token and the rest begins with this token, behind the comments. -/
theorem Begun.made_eq {comments rest : List Node} {token : Node} (h : Begun xs comments token rest) :
    xs.takeWhile isExtra = comments ∧
      (xs.dropWhile isExtra).filter (!isMark ·) = token :: rest.filter (!isMark ·) := by
  obtain ⟨hextra, hmark⟩ := isExtra_of_isCodeKind h.code
  rw [h.split, List.takeWhile_append_of_pos h.extras, List.dropWhile_append_of_pos h.extras,
    List.takeWhile_cons_of_neg (by simp [hextra]), List.dropWhile_cons_of_neg (by simp [hextra]),
    List.filter_cons_of_pos (by simp [hmark]), List.append_nil]
  exact ⟨rfl, rfl⟩

/-- A word or a symbol is read as the comments before it and a bare token. -/
theorem begun_of_yields {bound : Bool} {t : Terminal} {kind : String}
    (h : table.Yields bound (.term t) s xs s') (hsorts : t.form.sorts = [(kind, false)])
    (hcode : isCodeKind kind = true) : ∃ comments token, Begun xs comments token [] ∧ token.kind = kind := by
  cases h with
  | term h =>
    rcases readTerminal_cases h with ⟨hform, -⟩ | ⟨lines, steps, ⟨hform, -⟩ |
      ⟨found, named, size, -, hscan, rfl, -⟩⟩
    · rw [hform] at hsorts
      cases hsorts
    · rw [hform] at hsorts
      cases hsorts
    · have hsort := Form.scan_sorts hscan
      rw [hsorts, List.mem_singleton, Prod.mk.injEq] at hsort
      obtain ⟨rfl, rfl⟩ := hsort
      refine ⟨_, _, ⟨rfl, fun c hc => ?_, hcode, rfl⟩, rfl⟩
      simp [isExtra, (extras_comment _ _ _ c hc).1]

/-- Some comments, a parenthesis behind them, and parts of a group. -/
structure Parenthesised (xs comments : List Node) (paren : Node) (rest : List Node) : Prop
    extends Begun xs comments paren rest where
  opening : isOpening paren = true
  parts : ∀ n ∈ rest, OfSort isGroupPart n

theorem parenthesised_of_yields {bound : Bool} {spec : Phrase}
    (h : table.Yields bound (specGroup spec) s xs s')
    (hsort : table.emits leafSort 20 isGroupPart
      (.within (fun _ => true) (.seq (.many (.seq spec terminator)) (sym ")"))) = true) :
    ∃ comments paren rest, Parenthesised xs comments paren rest := by
  cases h with
  | @seq _ _ _ _ ys s₁ zs _ hopening hrest =>
    obtain ⟨comments, paren, hbegun, hkind⟩ := begun_of_yields hopening rfl (by decide)
    exact ⟨comments, paren, zs, ⟨by simpa using hbegun.append, by simp [isOpening, hkind],
      ofSort_of_yields hrest hsort⟩⟩

/-- What stands behind the keyword of a declaration: members in parentheses, a list of such members, or a
    single member. -/
inductive Declares (xs : List Node) : Prop where
  | group {comments paren rest} (h : Parenthesised xs comments paren rest)
  | list {comments ys n paren rest} (hsplit : xs = comments ++ [n]) (hextras : ∀ c ∈ comments, isExtra c = true)
      (hmade : Made "var_spec_list" ys n) (h : Parenthesised ys comments paren rest)
  | sole {comments members} (hsplit : xs = comments ++ members) (hextras : ∀ c ∈ comments, isExtra c = true)
      (hmembers : ∀ n ∈ members, isSpec n = true) (hsole : members.length ≤ 1)

theorem Declares.of_spec {kind : String} (hkind : specKinds.contains kind = true) (xs : List Node) :
    Declares (wrap kind xs) := by
  have hextras : ∀ c ∈ xs.takeWhile isExtra, isExtra c = true :=
    fun c hc => List.all_eq_true.mp (List.all_takeWhile ..) c hc
  rcases wrap_cases kind xs with ⟨hnone, hwrap⟩ | ⟨n, hmade, hwrap⟩
  · refine @Declares.sole _ (xs.takeWhile isExtra) [] ?_ hextras (fun n hn => by cases hn) (Nat.zero_le _)
    rw [hwrap, ← hnone, List.takeWhile_append_dropWhile]
  · refine .sole hwrap hextras (fun m hm => ?_) (Nat.le_refl 1)
    rw [List.mem_singleton.mp hm, isSpec, hmade.kind_eq]
    exact hkind

theorem Declares.of_list {bound : Bool} {spec : Phrase}
    (h : table.Yields bound (.node "var_spec_list" (specGroup spec)) s xs s')
    (hsort : table.emits leafSort 20 isGroupPart
      (.within (fun _ => true) (.seq (.many (.seq spec terminator)) (sym ")"))) = true) : Declares xs := by
  cases h with
  | @node _ _ _ _ ys _ h =>
    obtain ⟨comments, paren, rest, hparens⟩ := parenthesised_of_yields h hsort
    rcases wrap_cases "var_spec_list" ys with ⟨hnone, -⟩ | ⟨n, hmade, hwrap⟩
    · have hmade := hparens.made_eq.2
      rw [hnone] at hmade
      cases hmade
    · rw [hparens.made_eq.1] at hwrap
      exact .list hwrap hparens.extras hmade hparens

/-- **A declaration is a keyword and what it declares.** -/
theorem declares_of_groupRule {bound : Bool} {a : Phrase} (ha : GroupRule a)
    (h : table.Yields bound a s xs s') : ∃ comments keyword rest, Begun xs comments keyword rest ∧
      OfSort isGroupPart keyword ∧ isSpec keyword = false ∧ Declares rest := by
  -- all three rules begin with the keyword; what may follow it differs, and comes as `hrest`
  have hkeyword {word : String} {ys zs : List Node} {s₁ : State}
      (hword : table.Yields bound (.term { form := .word word }) s ys s₁)
      (hpart : isCodeKind word = true ∧ isGroupPart word false "" = true ∧ specKinds.contains word = false)
      (hrest : Declares zs) : ∃ comments keyword rest, Begun (ys ++ zs) comments keyword rest ∧
        OfSort isGroupPart keyword ∧ isSpec keyword = false ∧ Declares rest := by
    obtain ⟨comments, keyword, hbegun, rfl⟩ := begun_of_yields hword rfl hpart.1
    refine ⟨comments, keyword, zs, by simpa using hbegun.append, .inr (.inr ?_), hpart.2.2, hrest⟩
    rw [hbegun.bare]
    exact hpart.2.1
  -- one case for each rule: a parenthesised group, or one member alone
  cases ha with
  | const =>
    cases h with
    | seq hword hrest =>
      refine hkeyword hword (by decide +kernel) ?_
      cases hrest with
      | left h =>
        obtain ⟨comments, paren, rest, h⟩ := parenthesised_of_yields h (by decide +kernel)
        exact .group h
      | right h =>
        cases h with
        | call h =>
        cases h with
        | node h => exact .of_spec (by decide) _
  | var =>
    cases h with
    | seq hword hrest =>
      refine hkeyword hword (by decide +kernel) ?_
      cases hrest with
      -- the list of variables is a node of its own, which holds the parentheses
      | left h => exact .of_list h (by decide +kernel)
      | right h =>
        cases h with
        | call h =>
        cases h with
        | node h => exact .of_spec (by decide) _
  | type =>
    cases h with
    | seq hword hrest =>
      refine hkeyword hword (by decide +kernel) ?_
      cases hrest with
      | left h =>
        obtain ⟨comments, paren, rest, h⟩ := parenthesised_of_yields h (by decide +kernel)
        exact .group h
      | right h =>
        cases h with
        | call h =>
        cases h with
        | left h => cases h with | node h => exact .of_spec (by decide) _
        | right h =>
        cases h with
        | left h => cases h with | node h => exact .of_spec (by decide) _
        | right h => cases h with | node h => exact .of_spec (by decide) _

/-! ### Groups of a source -/

/-- The members that a child of a declaration is or holds. -/
def membersAt (x : List Node × Node) : List (List Node × Node) :=
  if isSpec x.2 then [x]
  else if x.2.kind.endsWith "_spec_list" then (withBefore [] x.2.children).filter fun y => isSpec y.2
  else []

theorem specs_def (decl : Node) : specs decl = (withBefore [] decl.children).flatMap membersAt := rfl

/-- Where no list of members is, the members are those of the nodes that are one. -/
theorem flatMap_membersAt {before : List Node} (h : ∀ n ∈ xs, n.kind.endsWith "_spec_list" = false) :
    (withBefore before xs).flatMap membersAt = (withBefore before xs).filter fun x => isSpec x.2 := by
  induction xs generalizing before with
  | nil => rfl
  | cons n rest ih =>
    have hn : n.kind.endsWith "_spec_list" = false := h n List.mem_cons_self
    rw [withBefore, List.flatMap_cons, ih fun x hx => h x (List.mem_cons_of_mem n hx), List.filter_cons]
    by_cases hspec : isSpec n = true <;> simp [membersAt, hspec, hn]

/-- A part of a group is a member, a comment or a bare token, and it opens no other group. -/
theorem Plain.part {n : Node} (hplain : Plain n) (h : OfSort isGroupPart n) :
    n.named = (isSpec n || n.isComment) ∧ isOpening n = false ∧ n.kind.endsWith "_spec_list" = false := by
  by_cases hextra : isExtra n = true
  · obtain ⟨hcomment, hnamed⟩ := hplain.comment hextra
    have hkind : n.kind = "comment" := beq_iff_eq.mp hcomment
    refine ⟨by rw [hnamed, hcomment, Bool.or_true], by simp [isOpening, hkind], ?_⟩
    rw [hkind]
    decide +kernel
  · have hcode : n.isComment = false := by
      simp only [isExtra, Bool.or_eq_true, not_or, Bool.not_eq_true] at hextra
      exact hextra.1
    have hsort := (h.resolve_left hextra).resolve_left (by simp [hplain.mark])
    simp only [isGroupPart, Bool.and_eq_true, bne_iff_ne, ne_eq, beq_iff_eq, Bool.not_eq_true'] at hsort
    exact ⟨by rw [hsort.1.2, hcode, Bool.or_false]; rfl, by simp [isOpening, hsort.1.1], hsort.2⟩

/-- A comment is no member. -/
theorem isSpec_of_extra {n : Node} (h : isExtra n = true) : isSpec n = false := by
  simp only [isExtra, Node.isComment, Bool.or_eq_true, beq_iff_eq] at h
  rcases h with h | h <;> simp [isSpec, specKinds, h]

/-- A declaration is a group if its members stand behind the only parenthesis among them. -/
theorem Grouped.of_split {front rest : List Node} {paren : Node} (hkind : decl.kind ∈ groupKinds)
    (hspecs : specs decl = (withBefore [] (memberSiblings decl)).filter fun x => isSpec x.2)
    (hsplit : memberSiblings decl = front ++ paren :: rest)
    (hplain : ∀ n ∈ memberSiblings decl, Plain n) (hopening : isOpening paren = true)
    (hbare : paren.named = false) (hparts : ∀ n ∈ front ++ rest, OfSort isGroupPart n)
    (hfront : ∀ n ∈ front, isSpec n = false) : Grouped decl := by
  -- on both sides of the parenthesis a part is a member or a comment, so it is no second parenthesis
  have hpart (n : Node) (hn : n ∈ front ++ rest) :
      n.named = (isSpec n || n.isComment) ∧ isOpening n = false := by
    have hmem : n ∈ memberSiblings decl := by
      rw [hsplit]
      rcases List.mem_append.mp hn with hn | hn
      · exact List.mem_append_left _ hn
      · exact List.mem_append_right _ (List.mem_cons_of_mem _ hn)
    obtain ⟨hnamed, hother, -⟩ := (hplain n hmem).part (hparts n hn)
    exact ⟨hnamed, hother⟩
  have hbefore : ∀ n ∈ front, isOpening n = false := fun n hn => (hpart n (List.mem_append_left _ hn)).2
  constructor
  case kind => exact hkind
  case specs_eq => exact hspecs
  case opening =>
    -- the parenthesis is the only opening: nothing before it and nothing after it is one
    have hafter : ∀ n ∈ rest, isOpening n = false := fun n hn => (hpart n (List.mem_append_right _ hn)).2
    rw [hsplit, List.filter_append, List.filter_cons_of_pos hopening,
      List.filter_eq_nil_iff.mpr fun n hn => by simp [hbefore n hn],
      List.filter_eq_nil_iff.mpr fun n hn => by simp [hafter n hn]]
    rfl
  case behind =>
    rw [hsplit, List.takeWhile_append_of_pos fun n hn => by simp [hbefore n hn],
      List.takeWhile_cons_of_neg (by simp [hopening]), List.append_nil]
    exact hfront
  case parts =>
    intro n hn
    rw [hsplit] at hn
    rcases List.mem_append.mp hn with hn | hn
    · exact (hpart n (List.mem_append_left _ hn)).1
    -- the parenthesis itself is unnamed and neither a member nor a comment
    · rcases List.mem_cons.mp hn with rfl | hn
      · obtain ⟨hspec, hcomment⟩ := isSpec_of_isOpening hopening
        rw [hbare, hspec, hcomment]
        rfl
      · exact (hpart n (List.mem_append_right _ hn)).1

/-- Where no list of members is, the members are among the parts of the declaration. -/
theorem specs_of_direct (h : ∀ n ∈ decl.children, n.kind.endsWith "_spec_list" = false) :
    memberSiblings decl = decl.children ∧
      specs decl = (withBefore [] (memberSiblings decl)).filter fun x => isSpec x.2 := by
  have hsiblings : memberSiblings decl = decl.children := by
    unfold memberSiblings
    rw [List.find?_eq_none.mpr fun n hn => by simp [h n hn]]
  exact ⟨hsiblings, by rw [specs_def, flatMap_membersAt h, hsiblings]⟩

/-- The members of a list are those of the declaration that holds it. -/
theorem specs_of_list {front : List Node} {list : Node} (hchildren : decl.children = front ++ [list])
    (hfront : ∀ n ∈ front, isSpec n = false ∧ n.kind.endsWith "_spec_list" = false)
    (hspec : isSpec list = false) (hlist : list.kind.endsWith "_spec_list" = true) :
    memberSiblings decl = list.children ∧
      specs decl = (withBefore [] (memberSiblings decl)).filter fun x => isSpec x.2 := by
  have hsiblings : memberSiblings decl = list.children := by
    unfold memberSiblings
    rw [hchildren, List.find?_append, List.find?_eq_none.mpr fun n hn => by simp [(hfront n hn).2],
      Option.none_or]
    simp [hlist]
  have hnone : (withBefore [] front).filter (fun x => isSpec x.2) = [] :=
    List.filter_eq_nil_iff.mpr fun x hx => by simp [(hfront x.2 (mem_of_withBefore hx)).1]
  refine ⟨hsiblings, ?_⟩
  rw [specs_def, hchildren, withBefore_append, List.flatMap_append,
    flatMap_membersAt fun n hn => (hfront n hn).2, hnone, hsiblings]
  simp [withBefore, membersAt, hspec, hlist]

/-- A kind of members is not that of a list of members. -/
theorem endsWith_of_isSpec {n : Node} (h : isSpec n = true) : n.kind.endsWith "_spec_list" = false := by
  simp only [isSpec, specKinds, List.contains_cons, List.contains_nil, Bool.or_false, Bool.or_eq_true,
    beq_iff_eq] at h
  rcases h with h | h | h | h <;> rw [h] <;> decide +kernel

/-- A declaration of a single member has no more of them. -/
theorem length_specs_le {keyword : Node} {comments members : List Node}
    (hchildren : decl.children = keyword :: (comments ++ members))
    (hplain : ∀ n ∈ decl.children, Plain n)
    (hpart : OfSort isGroupPart keyword) (hkeyword : isSpec keyword = false)
    (hextras : ∀ c ∈ comments, isExtra c = true) (hmembers : ∀ n ∈ members, isSpec n = true) :
    (specs decl).length ≤ members.length := by
  -- no child is itself a list, so the members are those of the declaration
  have hdirect : ∀ n ∈ decl.children, n.kind.endsWith "_spec_list" = false := by
    intro n hn
    have hn' := hn
    rw [hchildren] at hn'
    rcases List.mem_cons.mp hn' with rfl | hn'
    · exact ((hplain n hn).part hpart).2.2
    · rcases List.mem_append.mp hn' with hn' | hn'
      · exact ((hplain n hn).part (.inl (hextras n hn'))).2.2
      · exact endsWith_of_isSpec (hmembers n hn')
  obtain ⟨hsiblings, hspecs⟩ := specs_of_direct hdirect
  have hcount : (specs decl).length = (decl.children.filter isSpec).length := by
    conv => rhs; rw [← map_withBefore [] decl.children, List.filter_map, List.length_map]
    rw [hspecs, hsiblings]
    rfl
  rw [hcount, hchildren, List.filter_cons_of_neg (by simp [hkeyword]), List.filter_append,
    List.filter_eq_nil_iff.mpr fun c hc => by simp [isSpec_of_extra (hextras c hc)], List.nil_append]
  exact List.length_filter_le _ _

/-- The marks among the parts of a group do not matter. -/
theorem Parenthesised.filter_eq {comments rest : List Node} {paren : Node}
    (h : Parenthesised xs comments paren rest) :
    xs.filter (!isMark ·) = comments.filter (!isMark ·) ++ paren :: rest.filter (!isMark ·) := by
  rw [h.split, List.filter_append, List.filter_cons_of_pos (by simp [(isExtra_of_isCodeKind h.code).2])]

/-- **A declaration of several members is a group.** -/
theorem Declares.grouped {keyword : Node} {rest : List Node} (h : Declares rest) (hkind : decl.kind ∈ groupKinds)
    (hchildren : decl.children = keyword :: rest.filter (!isMark ·))
    (hpart : OfSort isGroupPart keyword) (hkeyword : isSpec keyword = false)
    (hplain : ∀ n ∈ decl.preorder, Plain n) (hmany : 2 ≤ (specs decl).length) : Grouped decl := by
  have hchild (n : Node) (hn : n ∈ decl.children) : Plain n :=
    hplain n (preorder_child (mem_preorder.mpr (.inl rfl)) hn)
  -- the keyword and the comments behind it are no members
  have hfront {comments : List Node} (hextras : ∀ c ∈ comments, isExtra c = true) :
      ∀ n ∈ keyword :: comments.filter (!isMark ·), OfSort isGroupPart n ∧ isSpec n = false := by
    intro n hn
    rcases List.mem_cons.mp hn with rfl | hn
    · exact ⟨hpart, hkeyword⟩
    · have hextra := hextras n (List.mem_filter.mp hn).1
      exact ⟨.inl hextra, isSpec_of_extra hextra⟩
  cases h with
  | @group comments paren inner h =>
    -- the members are children of the declaration
    rw [h.filter_eq, ← List.cons_append] at hchildren
    have hparts : ∀ n ∈ keyword :: comments.filter (!isMark ·) ++ inner.filter (!isMark ·),
        OfSort isGroupPart n := by
      intro n hn
      rcases List.mem_append.mp hn with hn | hn
      · exact (hfront h.extras n hn).1
      · exact h.parts n (List.mem_filter.mp hn).1
    have hdirect : ∀ n ∈ decl.children, n.kind.endsWith "_spec_list" = false := by
      intro n hn
      have hn' := hn
      rw [hchildren] at hn'
      rcases List.mem_append.mp hn' with hn' | hn'
      · exact ((hchild n hn).part (hparts n (List.mem_append_left _ hn'))).2.2
      · rcases List.mem_cons.mp hn' with rfl | hn'
        · rw [beq_iff_eq.mp h.opening]
          decide +kernel
        · exact ((hchild n hn).part (hparts n (List.mem_append_right _ hn'))).2.2
    obtain ⟨hsiblings, hspecs⟩ := specs_of_direct hdirect
    exact .of_split hkind hspecs (hsiblings.trans hchildren) (hsiblings ▸ hchild) h.opening h.bare hparts
      fun n hn => (hfront h.extras n hn).2
  | @list comments ys list paren inner hsplit hextras hmade h =>
    -- the members are children of the list, the only one among the children of the declaration
    have hlist : isMark list = false ∧ isSpec list = false ∧
        list.kind.endsWith "_spec_list" = true := by
      rw [isMark, isSpec, hmade.kind_eq]
      decide +kernel
    rw [hsplit, List.filter_append, List.filter_cons_of_pos (by simp [hlist.1]), List.filter_nil,
      ← List.cons_append] at hchildren
    have hbefore : ∀ n ∈ keyword :: comments.filter (!isMark ·),
        isSpec n = false ∧ n.kind.endsWith "_spec_list" = false := by
      intro n hn
      obtain ⟨hsort, hspec⟩ := hfront hextras n hn
      exact ⟨hspec, ((hchild n (by rw [hchildren]; exact List.mem_append_left _ hn)).part hsort).2.2⟩
    obtain ⟨hsiblings, hspecs⟩ := specs_of_list hchildren hbefore hlist.2.1 hlist.2.2
    have hinner : list.children = [] ++ paren :: inner.filter (!isMark ·) := by
      rw [hmade.children_eq, h.made_eq.2, List.nil_append]
    refine .of_split hkind hspecs (hsiblings.trans hinner) (fun n hn => ?_) h.opening h.bare
      (fun n hn => h.parts n (List.mem_filter.mp hn).1) fun n hn => by cases hn
    rw [hsiblings] at hn
    have hlist_mem : list ∈ decl.preorder :=
      preorder_child (mem_preorder.mpr (.inl rfl)) (by simp [hchildren])
    exact hplain n (preorder_child hlist_mem hn)
  | @sole comments members hsplit hextras hmembers hsole =>
    -- there is one member at most
    rw [hsplit, List.filter_append] at hchildren
    have hle := length_specs_le hchildren hchild hpart hkeyword
      (fun c hc => hextras c (List.mem_filter.mp hc).1) fun n hn => hmembers n (List.mem_filter.mp hn).1
    have hfilter := List.length_filter_le (!isMark ·) members
    omega

/-- **The declarations of several members in a parsed source are groups.** -/
theorem grouped_of_parse {code : Bytes} {t : SourceTree} (h : parseTree code = .ok t)
    (hdecl : decl ∈ t.root.children) (hkind : decl.kind ∈ groupKinds) (hmany : 2 ≤ (specs decl).length) :
    Grouped decl := by
  unfold parseTree at h
  split at h
  · rename_i root hparse
    cases h
    have hself : decl ∈ decl.preorder := mem_preorder.mpr (.inl rfl)
    obtain ⟨a, m, s, ys, s', hrule, hyields, hchildren⟩ :=
      groupRule_of_parse hparse hdecl hself (List.contains_iff_mem.mpr hkind)
    obtain ⟨comments, keyword, rest, hbegun, hpart, hkeyword, hdeclares⟩ :=
      declares_of_groupRule hrule hyields
    rw [hbegun.made_eq.2] at hchildren
    exact hdeclares.grouped hkind hchildren hpart hkeyword
      (fun n hn => plain_of_parse hparse hdecl hn) hmany
  · cases h

end Go

end Docsmith
