import Docsmith.Proofs.Find.Resolve
import Docsmith.Proofs.Python.Slots
import Mathlib.Data.List.Flatten
import Mathlib.Data.List.Forall2

namespace Docsmith

/-!
# Where Python declarations come from

Every declaration of a Python source is that of a statement or of a member of a class, and they stand in the
order of the source.  An overload declares nothing, and no more does a setter or deleter in a class, if its
decorator is written as a dotted name with nothing behind it but arguments.

* `Returns.filterMapM_beside`, `Returns.mapM_beside`: results beside what they come from, in its order.
* `Python.Decorates`, `Python.decoratorName_eq`: a decorator written as a dotted name is known by its last part.
* `Python.Wraps`, `Python.unwrap_spec`: the definition in a node.
* `Python.namesOf`: the names of definitions and values.
* `Python.Origin`: a declaration and the node that it comes from.
* `Python.definitions_origins`: the nodes that the declarations of a source come from.
-/

/-! ### Results beside their origins -/

namespace Returns

variable {ε α β γ : Type}

/-- The results that there are for the elements of a list, beside the elements that they are of. -/
theorem filterMapM_beside {f : α → Except ε (Option β)} {xs : List α} {R : α → β → Prop}
    (hf : ∀ a ∈ xs, Returns (f a) fun y? => ∀ y ∈ y?, R a y) :
    Returns (xs.filterMapM f) fun ys => ∃ origins : List α, origins.Sublist xs ∧ List.Forall₂ R origins ys := by
  induction xs with
  | nil => exact .pure ⟨[], .slnil, .nil⟩
  | cons a rest ih =>
    rw [List.filterMapM_cons]
    refine (hf a List.mem_cons_self).bind fun y? hy => ?_
    have hlater := ih fun x hx => hf x (List.mem_cons_of_mem a hx)
    cases y? with
    | none =>
      intro ys hys
      obtain ⟨origins, hsub, hbeside⟩ := hlater ys hys
      exact ⟨origins, hsub.cons a, hbeside⟩
    | some y =>
      refine hlater.bind fun ys ⟨origins, hsub, hbeside⟩ => .pure ?_
      exact ⟨a :: origins, hsub.cons_cons a, .cons (hy y rfl) hbeside⟩

/-- The results for the elements of a list, beside the parts of the elements that they are of. -/
theorem mapM_beside {f : α → Except ε (List β)} {xs : List α} {R : γ → β → Prop} (parts : α → List γ)
    (hf : ∀ a ∈ xs, Returns (f a) fun ys => ∃ origins : List γ, origins.Sublist (parts a) ∧
      List.Forall₂ R origins ys) :
    Returns (xs.mapM f) fun yss => ∃ origins : List γ, origins.Sublist (xs.flatMap parts) ∧
      List.Forall₂ R origins yss.flatten := by
  induction xs with
  | nil => exact .pure ⟨[], .slnil, .nil⟩
  | cons a rest ih =>
    rw [List.mapM_cons]
    refine (hf a List.mem_cons_self).bind fun ys ⟨origins, hsub, hbeside⟩ => ?_
    refine (ih fun x hx => hf x (List.mem_cons_of_mem a hx)).bind fun yss ⟨later, hsub', hbeside'⟩ => ?_
    refine .pure ⟨origins ++ later, ?_, ?_⟩
    · rw [List.flatMap_cons]
      exact hsub.append hsub'
    · rw [List.flatten_cons]
      exact List.rel_append hbeside hbeside'

end Returns

/-! ### Parts of a tree in order -/

theorem preorder_eq (n : Node) : n.preorder = n :: Node.preorderAll n.children := by
  cases n
  rfl

/-- The nodes of some trees have their roots among them, in their order. -/
theorem sublist_preorderAll (xs : List Node) : xs.Sublist (Node.preorderAll xs) := by
  induction xs with
  | nil => exact .slnil
  | cons x rest ih =>
    rw [Node.preorderAll, preorder_eq, List.cons_append]
    exact (ih.trans (List.sublist_append_right _ _)).cons_cons x

/-- The nodes of a tree are among those of some trees that it is one of. -/
theorem preorder_sublist {c : Node} {xs : List Node} (h : c ∈ xs) :
    c.preorder.Sublist (Node.preorderAll xs) := by
  obtain ⟨earlier, later, rfl⟩ := List.append_of_mem h
  rw [preorderAll_append, Node.preorderAll]
  exact (List.sublist_append_left _ _).trans (List.sublist_append_right _ _)

theorem preorderAll_eq_flatMap (xs : List Node) : Node.preorderAll xs = xs.flatMap Node.preorder := by
  induction xs with
  | nil => rfl
  | cons x rest ih => rw [Node.preorderAll, ih, List.flatMap_cons]

namespace Python

open Text

variable {t : SourceTree} {n d : Node} {names : List String} {text name owner : String}

/-! ### Decorators -/

/-- The text is that of a decorator written as a dotted name, of which the last part is given: nothing but
    arguments comes behind the name, and no white space is in it. -/
def Decorates (text name : String) : Prop :=
  ∃ path arguments : List Char, text.toList = '@' :: (path ++ name.toList ++ arguments) ∧
    (path = [] ∨ path.getLast? = some '.') ∧ (∀ c ∈ path, c ≠ '@' ∧ c ≠ '(' ∧ isBlank c = false) ∧
    (arguments = [] ∨ arguments.head? = some '(')

/-- The text has none of the marks that end a part of a decorator. -/
def isDecoratorPart (s : String) : Bool :=
  s.toList.all fun c => c != '.' && c != '@' && c != '(' && !isBlank c

/-- What is written up to a mark is taken, and no more. -/
theorem takeWhile_append_mark {p : Char → Bool} {xs ys : List Char} (mark : Char) (hxs : ∀ c ∈ xs, p c = true)
    (hmark : p mark = false) (hys : ys = [] ∨ ys.head? = some mark) : (xs ++ ys).takeWhile p = xs := by
  rw [List.takeWhile_append_of_pos hxs]
  rcases hys with rfl | hys
  · simp
  · obtain ⟨rest, rfl⟩ := List.head?_eq_some_iff.mp hys
    rw [List.takeWhile_cons_of_neg (by simp [hmark]), List.append_nil]

/-- **A decorator written as a dotted name is known by its last part.** -/
theorem decoratorName_eq (h : Decorates text name) (hname : isDecoratorPart name = true) :
    decoratorName text = name := by
  obtain ⟨path, arguments, htext, hpath, hplain, hargs⟩ := h
  have hpart : ∀ c ∈ name.toList, c ≠ '.' ∧ c ≠ '@' ∧ c ≠ '(' ∧ isBlank c = false := by
    simpa [isDecoratorPart, and_assoc] using hname
  -- neither the path nor the name has an at sign, a parenthesis or a blank
  have hcalled : ∀ c ∈ path ++ name.toList, c ≠ '@' ∧ c ≠ '(' ∧ isBlank c = false := fun c hc =>
    (List.mem_append.mp hc).elim (hplain c) fun hc => (hpart c hc).2
  have hdrop : text.toList.dropWhile (· == '@') = path ++ name.toList ++ arguments := by
    -- the at signs are dropped before the call is cut off, and the name is what the last dot leaves
    rw [htext, List.dropWhile_cons_of_pos (by simp)]
    -- with no name at all only the arguments follow the at sign, and they open with a parenthesis
    cases hempty : path ++ name.toList with
    | nil =>
      rcases hargs with rfl | hargs
      · rfl
      · obtain ⟨rest, rfl⟩ := List.head?_eq_some_iff.mp hargs
        rfl
    | cons c rest =>
      have hc := (hcalled c (by rw [hempty]; exact List.mem_cons_self)).1
      rw [List.cons_append, List.dropWhile_cons_of_neg (by simpa using hc)]
  have htake : (path ++ name.toList ++ arguments).takeWhile (· != '(') = path ++ name.toList :=
    takeWhile_append_mark '(' (fun c hc => by simpa using (hcalled c hc).2.1) (by decide) hargs
  have htrim : trimChars (path ++ name.toList) = path ++ name.toList := by
    have hblank := fun c hc => (hcalled c hc).2.2
    rw [trimChars, trimLeftChars, dropWhile_eq_self hblank, trimRightChars,
      dropWhile_eq_self fun c hc => hblank c (List.mem_reverse.mp hc), List.reverse_reverse]
  have hlast : (path ++ name.toList).reverse.takeWhile (· != '.') = name.toList.reverse := by
    rw [List.reverse_append]
    refine takeWhile_append_mark '.' (fun c hc => ?_) (by decide) ?_
    · simpa using (hpart c (List.mem_reverse.mp hc)).1
    · simpa [List.head?_reverse] using hpath
  unfold decoratorName
  dsimp only
  rw [hdrop, htake, htrim, hlast, List.reverse_reverse, String.ofList_toList]

/-- The decorators of a definition. -/
def decoratorsOf (n : Node) : List Node :=
  if n.kind == "decorated_definition" then n.namedChildren.filter (·.kind == "decorator") else []

/-- The definition in a node, and the names by which its decorators are known. -/
structure Wraps (t : SourceTree) (n d : Node) (names : List String) : Prop where
  definition : isDefinition d = true
  part : d = n ∨ d ∈ n.children
  known : ∀ c ∈ decoratorsOf n, ∀ text, t.textOf (some c) = .ok text → decoratorName text ∈ names
  overload : "overload" ∉ names

/-- The definition in a node belongs to the tree that the node belongs to. -/
theorem Wraps.mem (h : Wraps t n d names) {root : Node} (hn : n ∈ root.preorder) : d ∈ root.preorder := by
  rcases h.part with rfl | hd
  · exact hn
  · exact preorder_child hn hd

/-- A definition that is no overload. -/
theorem wraps_of_part (hpart : d = n ∨ d ∈ n.children)
    (hknown : ∀ c ∈ decoratorsOf n, ∀ text, t.textOf (some c) = .ok text → decoratorName text ∈ names) :
    Returns (pure (if isDefinition d && !names.contains "overload" then some (d, names) else none) :
      Except Failure (Option (Node × List String))) fun found => ∀ x ∈ found, Wraps t n x.1 x.2 := by
  refine .pure fun x hx => ?_
  split at hx
  · rename_i hd
    obtain ⟨hdefinition, hoverload⟩ := Bool.and_eq_true_iff.mp hd
    cases hx
    exact ⟨hdefinition, hpart, hknown, by simpa using hoverload⟩
  · cases hx

/-- **The definition in a node is no overload**, and all of its decorators are known. -/
theorem unwrap_wraps (t : SourceTree) (n : Node) :
    Returns (unwrap t n) fun found => ∀ x ∈ found, Wraps t n x.1 x.2 := by
  unfold unwrap
  split
  · rename_i hkind
    -- a decorator of the node is named among those the unwrapping collected
    have hknown : Returns (decoratorNames t n) fun names => ∀ c ∈ decoratorsOf n, ∀ text,
        t.textOf (some c) = .ok text → decoratorName text ∈ names := by
      intro names hnames c hc text htext
      rw [decoratorsOf, if_pos hkind] at hc
      obtain ⟨name, hname, heq⟩ := Returns.mapM_mem _ _ names hnames c hc
      rw [htext] at heq
      rwa [Except.ok.inj heq]
    refine hknown.bind fun names hnames => ?_
    cases hinner : n.child? "definition" with
    | none => exact .pure fun x hx => by cases hx
    -- only a decorated definition hands anything on: its definition, with those names
    | some d => exact wraps_of_part (.inr (child?_mem hinner)) hnames
  · rename_i hkind
    refine wraps_of_part (.inl rfl) fun c hc => ?_
    rw [decoratorsOf, if_neg hkind] at hc
    cases hc

/-! ### Names -/

/-- The names of the definitions of a source and of the values that it binds at the top level. -/
def namesOf (t : SourceTree) : List String :=
  (((t.root.preorder.filter isDefinition).map fun d => d.child? "name") ++
    (t.root.children.flatMap boundNames).map some).filterMap fun n? => (t.textOf n?).toOption

theorem mem_namesOf {n? : Option Node} (h : t.textOf n? = .ok name)
    (hmem : n? ∈ (((t.root.preorder.filter isDefinition).map fun d => d.child? "name") ++
      (t.root.children.flatMap boundNames).map some)) : name ∈ namesOf t :=
  List.mem_filterMap.mpr ⟨n?, hmem, by rw [h]; rfl⟩

/-- The name of a definition. -/
theorem definition_mem_namesOf (hd : d ∈ t.root.preorder) (hdefinition : isDefinition d = true)
    (h : t.textOf (d.child? "name") = .ok name) : name ∈ namesOf t :=
  mem_namesOf h (List.mem_append_left _ (List.mem_map.mpr ⟨d, List.mem_filter.mpr ⟨hd, hdefinition⟩, rfl⟩))

/-- The name of a value. -/
theorem bound_mem_namesOf {stmt : Node} (hstmt : stmt ∈ t.root.children) (hn : n ∈ boundNames stmt)
    (h : t.textOf (some n) = .ok name) : name ∈ namesOf t :=
  mem_namesOf h (List.mem_append_right _ (List.mem_map.mpr ⟨n, List.mem_flatMap.mpr ⟨stmt, hstmt, hn⟩, rfl⟩))

/-! ### Origins -/

/-- The names of the decorators under which a definition declares nothing of its sort. -/
def barred (kind : DeclKind) : List String :=
  if kind.owned then ["overload", "setter", "deleter"] else ["overload"]

/-- The declaration is that of a node: it covers the node, takes its names from the source, and is barred by
    none of the decorators. -/
structure Origin (t : SourceTree) (n : Node) (d : Declaration) : Prop where
  start_eq : d.start = n.start
  stop_eq : d.stop = n.stop
  kind_ne : d.kind ≠ .interfaceMethod
  name_mem : d.name ∈ namesOf t
  owner_mem : if d.kind.owned then d.owner ∈ namesOf t else d.owner = ""
  pointer_eq : d.pointer = false
  keyword_eq : d.kind = .value → d.keyword = if isUpperText d.name then "const" else "var"
  allowed : ∀ c ∈ decoratorsOf n, ∀ text, t.textOf (some c) = .ok text →
    ∀ name ∈ barred d.kind, ¬ Decorates text name

/-- A definition is barred by no decorator if none of the names that they are known by bars it. -/
theorem Wraps.allowed {kind : DeclKind} (h : Wraps t n d names)
    (hnames : kind.owned = true → "setter" ∉ names ∧ "deleter" ∉ names) :
    ∀ c ∈ decoratorsOf n, ∀ text, t.textOf (some c) = .ok text →
      ∀ name ∈ barred kind, ¬ Decorates text name := by
  intro c hc text htext name hname hdecorates
  have hpart : ∀ name ∈ ["overload", "setter", "deleter"], isDecoratorPart name = true := by decide
  have hall : name ∈ ["overload", "setter", "deleter"] ∧ name ∉ names := by
    have hoverload := h.overload
    unfold barred at hname
    split at hname
    · have hout := hnames ‹_›
      simp only [List.mem_cons, List.not_mem_nil, or_false] at hname
      rcases hname with rfl | rfl | rfl <;> simp_all
    · simp_all
  refine hall.2 ?_
  rw [← decoratorName_eq hdecorates (hpart name hall.1)]
  exact h.known c hc text htext

/-- The declaration of a definition comes from the node that the definition is in. -/
theorem declaration_origin (kind : DeclKind) (hkind : kind ≠ .interfaceMethod ∧ kind ≠ .value)
    (hname : name ∈ namesOf t) (howner : if kind.owned then owner ∈ namesOf t else owner = "")
    (hallowed : ∀ c ∈ decoratorsOf n, ∀ text, t.textOf (some c) = .ok text →
      ∀ name ∈ barred kind, ¬ Decorates text name) :
    Returns (declaration t kind name owner n d) (Origin t n) :=
  (Returns.of_any (docstringSlot t d)).bind fun _ _ => .pure
    ⟨rfl, rfl, hkind.1, hname, howner, rfl, fun h => absurd h hkind.2, hallowed⟩

/-- A member of a class declares a method or property of its own name. -/
theorem member_origin (howner : owner ∈ namesOf t) (hn : n ∈ t.root.preorder) :
    Returns (member t owner n) fun found => ∀ x ∈ found, Origin t n x.1 := by
  refine (unwrap_wraps t n).bind fun found hfound => ?_
  cases found with
  | none => exact .pure fun x hx => by cases hx
  | some x =>
    obtain ⟨d, names⟩ := x
    have hwraps : Wraps t n d names := hfound _ rfl
    dsimp only
    -- what the member hands on is barred when it overloads or is an accessor; the test below is that bar
    split
    · exact .pure fun x hx => by cases hx
    · split
      · exact .pure fun x hx => by cases hx
      · rename_i hbarred
        refine (Returns.self _).bind fun name hname => ?_
        refine (declaration_origin _ (d := d) ?_ ?_ ?_ ?_).bind fun decl hdecl => .pure ?_
        · split <;> simp
        · exact definition_mem_namesOf (hwraps.mem hn) hwraps.definition hname
        · split <;> simpa [DeclKind.owned] using howner
        · refine hwraps.allowed fun _ => ?_
          simp only [List.any_eq_true, not_exists, not_and, Bool.or_eq_true, beq_iff_eq, not_or] at hbarred
          exact ⟨fun hmem => (hbarred _ hmem).1 rfl, fun hmem => (hbarred _ hmem).2 rfl⟩
        · intro x hx
          cases hx
          exact hdecl

/-- A class and its members come from the node that the class is in and from the statements in its body. -/
theorem classDeclarations_origins (hn : n ∈ t.root.preorder) (hwraps : Wraps t n d names) :
    Returns (classDeclarations t n d) fun found => ∃ origins, origins.Sublist n.preorder ∧
      List.Forall₂ (fun n x => Origin t n x.1) origins found := by
  have hd := hwraps.mem hn
  refine (Returns.self _).bind fun owner howner => ?_
  have hname : owner ∈ namesOf t := definition_mem_namesOf hd hwraps.definition howner
  refine (declaration_origin .type (d := d) (by simp) hname rfl
    (hwraps.allowed (by simp [DeclKind.owned]))).bind fun decl hdecl => ?_
  -- the members are below the class
  have hparts : (((d.child? "body").map (·.namedChildren)).getD []).Sublist (Node.preorderAll d.children) := by
    cases hbody : d.child? "body" with
    | none => exact List.nil_sublist _
    | some body =>
      refine .trans ?_ (preorder_sublist (child?_mem hbody))
      rw [preorder_eq]
      exact (List.filter_sublist.trans (sublist_preorderAll _)).cons body
  have hinside : ∀ c ∈ ((d.child? "body").map (·.namedChildren)).getD [], c ∈ d.preorder := by
    intro c hc
    rw [preorder_eq]
    exact List.mem_cons_of_mem d (hparts.subset hc)
  have hbelow : (Node.preorderAll d.children).Sublist (Node.preorderAll n.children) := by
    rcases hwraps.part with rfl | hmem
    · exact List.Sublist.refl _
    · refine .trans ?_ (preorder_sublist hmem)
      rw [preorder_eq d]
      exact List.sublist_cons_self d _
  have hmembers := Returns.filterMapM_beside fun c hc => member_origin hname (preorder_trans _ hd (hinside c hc))
  refine hmembers.bind fun found hfound => .pure ?_
  obtain ⟨origins, hsub, hbeside⟩ := hfound
  refine ⟨n :: origins, ?_, .cons hdecl (List.forall₂_map_right_iff.mpr hbeside)⟩
  rw [preorder_eq]
  exact ((hsub.trans hparts).trans hbelow).cons_cons n

/-- The values that a statement binds come from the statement. -/
theorem values_origin {before : List Node} (hn : n ∈ t.root.children) (hkind : n.kind = "expression_statement") :
    Returns (values t before n) fun ds => ∃ origins, origins.Sublist [n] ∧
      List.Forall₂ (Origin t) origins ds := by
  have htexts : Returns ((boundNames n).mapM fun c => t.textOf (some c)) fun texts =>
      ∀ name ∈ texts, name ∈ namesOf t :=
    .mapM fun c hc name hname => bound_mem_namesOf hn hc hname
  refine htexts.bind fun texts hnames => ?_
  cases texts with
  | nil => exact .pure ⟨[], List.nil_sublist _, .nil⟩
  | cons first rest =>
    refine .pure ⟨[n], List.Sublist.refl _, .cons ?_ .nil⟩
    refine ⟨rfl, rfl, by simp, hnames _ ?_, rfl, rfl, fun _ => rfl, fun c hc => ?_⟩
    · -- the first of the exported names, or the first of all
      have hmem : ((first :: rest).filter isExported).headD first
        ∈ first :: (first :: rest).filter isExported := by
        cases (first :: rest).filter isExported <;> simp
      rcases List.mem_cons.mp hmem with heq | hmem
      · rw [heq]
        exact List.mem_cons_self
      · exact (List.mem_filter.mp hmem).1
    · rw [decoratorsOf, if_neg (by simp [hkind])] at hc
      cases hc

/-- What a statement at the top level declares comes from it and from what is in it. -/
theorem topLevel_origins {before : List Node} (hn : n ∈ t.root.children) :
    Returns (topLevel t before n) fun found => ∃ origins, origins.Sublist n.preorder ∧
      List.Forall₂ (fun n x => Origin t n x.1) origins found := by
  have hmem : n ∈ t.root.preorder := preorder_child (mem_preorder.mpr (.inl rfl)) hn
  have hself : [n].Sublist n.preorder := by
    rw [preorder_eq]
    exact (List.nil_sublist _).cons_cons n
  unfold topLevel
  -- a value, a function or a class: the first two come of the node itself, a class of what stands in it
  split
  · rename_i hkind
    refine (values_origin hn (by simpa using hkind)).bind fun ds ⟨origins, hsub, hbeside⟩ => .pure ?_
    exact ⟨origins, hsub.trans hself, List.forall₂_map_right_iff.mpr hbeside⟩
  · refine (unwrap_wraps t n).bind fun found hfound => ?_
    cases found with
    | none => exact .pure ⟨[], List.nil_sublist _, .nil⟩
    | some x =>
      obtain ⟨d, names⟩ := x
      have hwraps : Wraps t n d names := hfound _ rfl
      dsimp only
      split
      · refine (Returns.self _).bind fun name hname => ?_
        have hown : name ∈ namesOf t := definition_mem_namesOf (hwraps.mem hmem) hwraps.definition hname
        refine (declaration_origin .function (d := d) (by simp) hown rfl
          (hwraps.allowed (by simp [DeclKind.owned]))).bind fun decl hdecl => .pure ?_
        exact ⟨[n], hself, .cons hdecl .nil⟩
      · exact classDeclarations_origins hmem hwraps

/-- **The declarations of a source come from its nodes, in their order**: from statements at the top level and
    from members of classes. -/
theorem definitions_origins (t : SourceTree) :
    Returns (definitions t) fun found => ∃ origins, origins.Sublist t.root.preorder ∧
      List.Forall₂ (fun n x => Origin t n x.1) origins found := by
  have hstatements : ((withBefore [] t.root.children).filter fun x => x.2.named).flatMap (fun x => x.2.preorder)
      |>.Sublist t.root.preorder := by
    have hsub : (((withBefore [] t.root.children).filter fun x => x.2.named).map (·.2)).Sublist
        t.root.children := by
      refine (List.filter_sublist.map _).trans ?_
      rw [map_withBefore]
    rw [preorder_eq, preorderAll_eq_flatMap]
    refine .cons _ ?_
    rw [← List.flatMap_map]
    exact hsub.flatMap _
  refine (Returns.mapM_beside (fun x : List Node × Node => x.2.preorder) fun x hx =>
    topLevel_origins ?_).bind fun found ⟨origins, hsub, hbeside⟩ => .pure ⟨origins, hsub.trans hstatements, hbeside⟩
  exact mem_of_withBefore (List.mem_filter.mp hx).1

end Python

end Docsmith
