import Docsmith.Proofs.Go.Sites

namespace Docsmith.Go

open Grammar

/-!
# The declarations of a source with comments inserted

A source with comments inserted declares what the source does, construct by construct; a declaration that a comment was
inserted on is documented.

* `Regrown`: a source with comments inserted, and its tree.
* `Kin`: the same declaration in both.
* `Regrown.token_eq`, `Regrown.name_eq`, `Regrown.names_eq`, `Regrown.receiver_eq`: tokens and names are the same.
* `Regrown.kin_function`, `Regrown.kin_method`, `Regrown.kin_group`, `Regrown.kin_topLevel`: the constructs.
* `Regrown.kin_declarations`: all declarations.
-/

variable {t t' : SourceTree} {is : Insertions t.code} {n n' root : Node} {x x' y y' : List Node × Node}

/-- A source with comments inserted, and its tree. -/
structure Regrown (t : SourceTree) (is : Insertions t.code) (t' : SourceTree) : Prop where
  code_eq : t'.code = is.result
  children : Along is (Grown is) t.root.children t'.root.children
  shaped : Shaped t
  apart : ∀ e ∈ is.all, ∀ n ∈ t.root.children, n.kind = "method_declaration" →
    e.target ≤ n.start ∨ n.stop ≤ e.target

/-- The same declaration in a source with comments inserted.  If one is inserted on it, it is documented there. -/
structure Kin (t : SourceTree) (is : Insertions t.code) (d d' : Declaration) : Prop where
  same : { d' with slot := d.slot, start := d.start, stop := d.stop } = d
  told : d.slot.hasDoc = false → t.Lands d → (∃ e ∈ is.all, e.target = d.landing t.code) → d'.slot.hasDoc = true

namespace Regrown

variable {m body body' : Node} {owner : String}

/-- A token has the same text. -/
theorem token_eq (h : Regrown t is t') (hm : m ∈ t.root.children) (hn : n ∈ m.preorder) (hgrown : Grown is n n')
    (htoken : n.children = []) : t'.code.slice n'.start n'.stop = t.code.slice n.start n.stop := by
  rw [h.code_eq]
  exact hgrown.slice_eq (h.shaped.solid hm hn) (hgrown.clean htoken)

/-- A declaration has the same name. -/
theorem name_eq (h : Regrown t is t') (hm : m ∈ t.root.children) (hn : n ∈ m.preorder) (hgrown : Grown is n n')
    (hkind : namingKinds.contains n.kind = true) : t'.textOf (n'.child? "name") = t.textOf (n.child? "name") := by
  have hrel := hgrown.child? "name" (by decide)
  refine textOf_rel ?_
  generalize hchild : n.child? "name" = c?, n'.child? "name" = c'? at hrel
  cases hrel with
  | none => exact .none
  | some hc =>
    have hmem := List.mem_of_find?_eq_some hchild
    have hrole := beq_iff_eq.mp (List.find?_some (p := fun c : Node => c.role == "name") hchild)
    exact .some (h.token_eq hm (preorder_child hn hmem) hc ((h.shaped.formed m hm n hn).names hkind _ hmem hrole))

/-- Declarations of several names have the same. -/
theorem names_eq (h : Regrown t is t') (hm : m ∈ t.root.children) (hn : n ∈ m.preorder) (hgrown : Grown is n n')
    (hkind : namingKinds.contains n.kind = true) :
    Matches Eq ((n.childrenIn "name").mapM fun c => t.textOf (some c))
      ((n'.childrenIn "name").mapM fun c => t'.textOf (some c)) := by
  have hrel := (List.forall₂_and_left _ _).mpr ⟨fun c (hc : c ∈ n.childrenIn "name") => hc,
    hgrown.childrenIn "name" (by decide)⟩
  rw [← List.forall₂_eq_eq_eq]
  refine .mapM hrel fun c c' ⟨hc, hgrown⟩ => .of_eq (textOf_rel (.some ?_))
  obtain ⟨hmem, hrole⟩ := List.mem_filter.mp hc
  have htoken := (h.shaped.formed m hm n hn).names hkind c hmem (beq_iff_eq.mp hrole)
  exact h.token_eq hm (preorder_child hn hmem) hgrown htoken

/-- A method has the same receiver. -/
theorem receiver_eq (h : Regrown t is t') (hm : m ∈ t.root.children) (hkind : m.kind = "method_declaration")
    (hgrown : Grown is m n') : receiver t' n' = receiver t m := by
  -- no insertion falls inside a method's parts, so each of them reads the same bytes in both trees
  have hfree (n c : Node) (hc : c ∈ m.preorder) (hgrown' : Grown is c n) :
      t'.code.slice n.start n.stop = t.code.slice c.start c.stop := by
    rw [h.code_eq]
    refine hgrown'.slice_eq (h.shaped.solid hm hc) fun e he hlt => ?_
    have hin := h.shaped.inside hm hc
    have horder := is.ordered e he
    have hapart := h.apart e he m hm hkind
    rcases hgrown.before.outside e he with hle | hlt'
    · omega
    · omega
  have hrel := hgrown.child? "receiver" (by decide)
  unfold receiver
  generalize hchild : m.child? "receiver" = c?, n'.child? "receiver" = c'? at hrel
  cases hrel with
  | none => rfl
  -- the receiver is looked up by role and then by kind, and both walks go the same way in the two trees
  | @some r r' hr =>
    have hparam := hr.namedChild? "parameter_declaration" (by decide)
    dsimp only [Option.map_some, Option.getD_some]
    generalize hfind : (r.namedChildren.find? fun c => c.kind == "parameter_declaration") = p?,
      (r'.namedChildren.find? fun c => c.kind == "parameter_declaration") = p'? at hparam
    cases hparam with
    | none => rfl
    | @some p p' hp =>
      have hmem : p ∈ m.preorder := by
        have hr_mem := preorder_child (mem_preorder.mpr (.inl rfl)) (List.mem_of_find?_eq_some hchild)
        exact preorder_child hr_mem (List.mem_filter.mp (List.mem_of_find?_eq_some hfind)).1
      have htype := hp.child? "type" (by decide)
      have htext : t'.textOf (p'.child? "type") = t.textOf (p.child? "type") := by
        refine textOf_rel ?_
        generalize hchild' : p.child? "type" = c?, p'.child? "type" = c'? at htype
        cases htype with
        -- the type may be missing, and then both texts are empty
        | none => exact .none
        | some hc => exact .some (hfree _ _ (preorder_child hmem (List.mem_of_find?_eq_some hchild')) hc)
      dsimp only
      rw [htext]

/-! ### Declarations that are not members -/

/-- What comments above a node say is documentation of it. -/
theorem hasDoc_line (h : Regrown t is t') {outer : Bool} (hbeside : Beside is outer x x')
    (hfront : outer = true ∨ x.1 ≠ []) (htarget : ∃ e ∈ is.all, e.target = x.2.start) :
    (lineSlot t'.code x'.1 x'.2).hasDoc = true := by
  rw [h.code_eq]
  exact (hbeside.headed hfront htarget).hasDoc

/-- A function or a method is the same, and told of if a comment is inserted on it. -/
theorem kin_line (h : Regrown t is t') (hm : x.2 ∈ t.root.children) (hbeside : Beside is true x x') {d d' : Declaration}
    (hsame : { d' with slot := d.slot, start := d.start, stop := d.stop } = d) (hstart : d.start = x.2.start)
    (hstop : d.stop = x.2.stop) (hslot : d'.slot = lineSlot t'.code x'.1 x'.2) : Kin t is d d' := by
  refine ⟨hsame, fun _ hlands ⟨e, he, htarget⟩ => ?_⟩
  have hsolid := h.shaped.solid hm (mem_preorder.mpr (.inl rfl))
  have hlanding : d.landing t.code = x.2.start := by
    rcases landing_of_lands h.shaped.regular hm (by omega) (by omega) hlands with hland | ⟨-, hland⟩
    · rw [hland, hstart]
    · exact hland
  rw [hslot]
  exact h.hasDoc_line hbeside (.inl rfl) ⟨e, he, htarget.trans hlanding⟩

theorem kin_function (h : Regrown t is t') (hm : x.2 ∈ t.root.children) (hkind : x.2.kind = "function_declaration")
    (hbeside : Beside is true x x') : Matches (Kin t is) (function t x.1 x.2) (function t' x'.1 x'.2) := by
  have hname := h.name_eq hm (mem_preorder.mpr (.inl rfl)) hbeside.node (by rw [hkind]; decide)
  refine (Matches.of_eq hname).bind fun name _ hsame => .pure ?_
  subst hsame
  exact h.kin_line hm hbeside rfl rfl rfl rfl

theorem kin_method (h : Regrown t is t') (hm : x.2 ∈ t.root.children) (hkind : x.2.kind = "method_declaration")
    (hbeside : Beside is true x x') :
    Matches (fun d? d'? => List.Forall₂ (Kin t is) d?.toList d'?.toList) (method t x.1 x.2) (method t' x'.1 x'.2) := by
  have hname := h.name_eq hm (mem_preorder.mpr (.inl rfl)) hbeside.node (by rw [hkind]; decide)
  refine (Matches.of_eq (h.receiver_eq hm hkind hbeside.node)).bind fun owner? _ hsame => ?_
  subst hsame
  cases owner? with
  | none => exact .pure .nil
  | some owner =>
    refine (Matches.of_eq hname).bind fun name _ hsame => .pure ?_
    subst hsame
    exact .cons (h.kin_line hm hbeside rfl rfl rfl rfl) .nil

/-- The methods of an interface. -/
theorem kin_interfaceMethods (h : Regrown t is t') (hm : m ∈ t.root.children) (hbody : body ∈ m.preorder)
    (hkind : body.kind = "interface_type") (hgrown : Grown is body body') :
    Matches (List.Forall₂ (Kin t is)) (interfaceMethods t owner body) (interfaceMethods t' owner body') := by
  have hparts := (List.forall₂_and_left _ _).mpr ⟨fun x hx => hx,
    hgrown.parts.beside (p := fun kind => methodKinds.contains kind) (by decide)⟩
  refine .mapM hparts fun x x' ⟨hx, hbeside⟩ => ?_
  obtain ⟨hmem, helem⟩ := List.mem_filter.mp hx
  obtain ⟨-, hkeyword, hnaming⟩ := methodKinds_plain helem
  have hpart : x.2 ∈ m.preorder := preorder_child hbody (mem_of_withBefore hmem)
  obtain ⟨first, rest, hchildren, hfirst, -⟩ :=
    (h.shaped.formed m hm body hbody).opening ("interface_type", "interface") (by decide) hkind
  have hfront : x.1 ≠ [] := before_ne_nil hmem hchildren (by rw [hfirst]; exact hkeyword)
  have hname := h.name_eq hm hpart hbeside.node hnaming
  refine (Matches.of_eq hname).bind fun name _ hsame => .pure ?_
  subst hsame
  refine ⟨rfl, fun _ hlands ⟨e, he, htarget⟩ => ?_⟩
  -- a comment on the method stands in front of it, and not of the construct that holds it
  have hlanding := hlands.resolve_right fun hother => hother.1 rfl
  exact h.hasDoc_line hbeside (.inr hfront) ⟨e, he, htarget.trans hlanding⟩

/-! ### Members -/

/-- A comment that is inserted on a declaration with the slot, on a member, makes for documentation in the other. -/
def Tells (t : SourceTree) (is : Insertions t.code) (spec : Node) (slot slot' : DocSlot) : Prop :=
  ∀ d : Declaration, d.slot = slot → d.start = spec.start → d.stop = spec.stop →
    slot.hasDoc = false → t.Lands d → (∃ e ∈ is.all, e.target = d.landing t.code) → slot'.hasDoc = true

theorem kin_typeSpec (h : Regrown t is t') (hm : m ∈ t.root.children) (hn : n ∈ m.preorder)
    (hkind : namingKinds.contains n.kind = true) (hgrown : Grown is n n') (keyword : String) {slot slot' : DocSlot}
    (htells : Tells t is n slot slot') :
    Matches (List.Forall₂ (Kin t is)) (typeSpec t keyword slot n) (typeSpec t' keyword slot' n') := by
  refine (Matches.of_eq (h.name_eq hm hn hgrown hkind)).bind fun name _ hsame => ?_
  subst hsame
  have hrel := hgrown.child? "type" (by decide)
  have hself : Kin t is
      { kind := .type, name := name, slot := slot, keyword := keyword, exported := isExported name, start := n.start,
        stop := n.stop }
      { kind := .type, name := name, slot := slot', keyword := keyword, exported := isExported name, start := n'.start,
        stop := n'.stop } :=
    ⟨rfl, fun hdoc hlands htarget => htells _ rfl rfl rfl hdoc hlands htarget⟩
  dsimp only
  -- the two trees have a type below the name or both have none
  generalize hchild : n.child? "type" = c?, n'.child? "type" = c'? at hrel
  cases hrel with
  | none => exact .pure (.cons hself .nil)
  | @some body body' hbody =>
    dsimp only
    rw [hbody.kind_eq]
    split
    -- an interface adds its methods, any other type nothing
    · rename_i hinterface
      have hpart := preorder_child hn (List.mem_of_find?_eq_some hchild)
      exact (h.kin_interfaceMethods hm hpart (beq_iff_eq.mp hinterface) hbody).bind fun ds ds' hds =>
        .pure (.cons hself hds)
    · exact .pure (.cons hself .nil)

theorem kin_valueSpec (h : Regrown t is t') (hm : m ∈ t.root.children) (hn : n ∈ m.preorder)
    (hkind : namingKinds.contains n.kind = true) (hgrown : Grown is n n') (keyword : String) {slot slot' : DocSlot}
    (htells : Tells t is n slot slot') :
    Matches (List.Forall₂ (Kin t is)) (valueSpec t keyword slot n) (valueSpec t' keyword slot' n') := by
  refine (h.names_eq hm hn hgrown hkind).bind fun names _ hsame => ?_
  subst hsame
  cases names with
  | nil => exact .pure .nil
  | cons first rest =>
    refine .pure (.cons ⟨rfl, fun hdoc hlands htarget => ?_⟩ .nil)
    exact htells _ rfl rfl rfl hdoc hlands htarget

/-- The slot of a member is documented if a comment stands above it, or above its group if it is the only one. -/
theorem hasDoc_specSlot (h : Regrown t is t') (hbeside : Beside is false x x') (hfront : x.1 ≠ [])
    (houter : Beside is true y y') (indent : String) {sole : Bool}
    (htarget : (∃ e ∈ is.all, e.target = x.2.start) ∨ sole = true ∧ ∃ e ∈ is.all, e.target = y.2.start) :
    (specSlot t' (lineSlot t'.code y'.1 y'.2) indent sole x'.1 x'.2).hasDoc = true := by
  unfold specSlot
  dsimp only
  -- the insertion is at the member itself, or at the declaration whose only member this is
  rcases htarget with htarget | ⟨rfl, htarget⟩
  · have hstarts : t'.code.startsLine x'.2.start = true := by
      rw [h.code_eq]
      exact (hbeside.headed (.inr hfront) htarget).startsLine
    -- a sole member takes the declaration's line, unless its own line has documentation already
    have hdoc := h.hasDoc_line hbeside (.inr hfront) htarget
    rw [if_pos hstarts, if_pos hstarts, if_pos hdoc]
    split <;> exact hdoc
  · have hdoc := h.hasDoc_line houter (.inl rfl) htarget
    rw [if_pos rfl]
    split
    · split
      · assumption
      · exact hdoc
    · exact hdoc

/-- The members of a declaration are those of the parts that are members or hold them. -/
theorem specs_eq_flatMap (decl : Node) :
    specs decl = ((withBefore [] decl.children).filter fun x => isMemberKind x.2.kind).flatMap membersAt := by
  rw [specs_def]
  induction withBefore [] decl.children with
  | nil => rfl
  | cons x xs ih =>
    rw [List.flatMap_cons, ih, List.filter_cons]
    split
    · rfl
    · rename_i hnone
      rw [isMemberKind, Bool.or_eq_true, not_or, Bool.not_eq_true, Bool.not_eq_true] at hnone
      rw [membersAt, isSpec, hnone.1, hnone.2]
      rfl

/-- Members of a declaration have counterparts. -/
theorem specs_grown {decl decl' : Node} (hgrown : Grown is decl decl') :
    List.Forall₂ (Beside is false) (specs decl) (specs decl') := by
  rw [specs_eq_flatMap, specs_eq_flatMap]
  refine List.rel_flatMap (hgrown.parts.beside (p := isMemberKind) (by decide +kernel)) fun x x' hx => ?_
  unfold membersAt isSpec
  rw [hx.node.kind_eq]
  split
  · exact .cons hx .nil
  · split
    · exact hx.node.parts.beside (p := fun kind => specKinds.contains kind) (by decide)
    · exact .nil

/-- The declarations of a group. -/
theorem kin_group (h : Regrown t is t') (hm : y.2 ∈ t.root.children) (hkind : groupKinds.contains y.2.kind = true)
    (hbeside : Beside is true y y') (keyword : String) :
    Matches (List.Forall₂ (Kin t is)) (group t keyword y.1 y.2) (group t' keyword y'.1 y'.2) := by
  have hspecs := specs_grown hbeside.node
  have hmembers := (List.forall₂_and_left _ _).mpr ⟨fun x (hx : x ∈ specs y.2) => hx, hspecs⟩
  unfold group
  dsimp only
  refine Matches.bind (R := List.Forall₂ (List.Forall₂ (Kin t is))) (.mapM hmembers fun x x' hboth => ?_)
    fun found found' hfound => .pure (List.rel_flatten hfound)
  obtain ⟨hx, hgrown⟩ := hboth
  rw [← hspecs.length_eq]
  -- a member is a child of the declaration or of its list; in both cases it lies below the declaration
  obtain ⟨n, hn, hmem⟩ := mem_specs (show (x.1, x.2) ∈ specs y.2 from hx)
  have hpart : x.2 ∈ y.2.preorder := preorder_child hn (mem_of_withBefore hmem)
  have hspec : specKinds.contains x.2.kind = true := by
    rw [specs_def] at hx
    obtain ⟨z, -, hx⟩ := List.mem_flatMap.mp hx
    unfold membersAt at hx
    split at hx
    · rename_i hz
      rw [List.mem_singleton.mp hx]
      exact hz
    · split at hx
      · exact (List.mem_filter.mp hx).2
      · cases hx
  have hnaming : namingKinds.contains x.2.kind = true := by
    simp only [specKinds, List.contains_cons, List.contains_nil, Bool.or_false, Bool.or_eq_true, beq_iff_eq] at hspec
    rcases hspec with hspec | hspec | hspec | hspec <;> rw [hspec] <;> decide
  -- that a told member has documentation follows from where its slot lands in the first tree
  have htells (indent indent' : String) (sole : Bool) : Tells t is x.2
      (specSlot t (lineSlot t.code y.1 y.2) indent sole x.1 x.2)
      (specSlot t' (lineSlot t'.code y'.1 y'.2) indent' sole x'.1 x'.2) := by
    rintro d hslot hstart hstop hdoc hlands ⟨e, he, htarget⟩
    refine h.hasDoc_specSlot hgrown (h.shaped.before_member hm hkind hx).1 hbeside indent' ?_
    -- the landing is the member's own start, or the declaration's when the member is alone
    rcases h.shaped.landing_of_member hm hn hmem hslot hstart hstop (hslot ▸ hdoc) hlands with
      hland | ⟨hsole, hland⟩
    · exact .inl ⟨e, he, htarget.trans hland⟩
    · exact .inr ⟨hsole, e, he, htarget.trans hland⟩
  split
  · exact h.kin_typeSpec hm hpart hnaming hgrown.node keyword (htells _ _ _)
  · exact h.kin_valueSpec hm hpart hnaming hgrown.node keyword (htells _ _ _)

/-! ### All declarations -/

/-- The kinds of constructs at the top level that declare something. -/
def declaringKinds : List String := ["function_declaration", "method_declaration"] ++ groupKinds

/-- Nothing else declares anything. -/
theorem topLevel_of_other (t : SourceTree) (before : List Node) (h : declaringKinds.contains n.kind = false) :
    topLevel t before n = .ok [] := by
  simp only [declaringKinds, groupKinds, List.cons_append, List.nil_append, List.contains_cons, List.contains_nil,
    Bool.or_false, Bool.or_eq_false_iff] at h
  obtain ⟨hfunction, hmethod, hconst, hvar, htype⟩ := h
  unfold topLevel
  rw [hfunction, hmethod, hconst, hvar, htype]
  rfl

/-- What a source declares comes of these. -/
theorem declarations_eq (t : SourceTree) : declarations t = List.flatten <$>
    ((withBefore [] t.root.children).filter fun x => declaringKinds.contains x.2.kind).mapM fun x =>
      topLevel t x.1 x.2 := by
  rw [mapM_flatten_filter fun x _ hx => topLevel_of_other t x.1 hx]
  rfl

theorem kin_topLevel (h : Regrown t is t') (hm : y.2 ∈ t.root.children) (hbeside : Beside is true y y') :
    Matches (List.Forall₂ (Kin t is)) (topLevel t y.1 y.2) (topLevel t' y'.1 y'.2) := by
  have hsame := hbeside.node.kind_eq
  -- the kinds are equal, so both trees take the same branch
  unfold topLevel
  rw [hsame]
  split
  · rename_i hkind
    exact (h.kin_function hm (beq_iff_eq.mp hkind) hbeside).bind fun d d' hd => .pure (.cons hd .nil)
  · split
    · rename_i hkind
      exact (h.kin_method hm (beq_iff_eq.mp hkind) hbeside).bind fun d? d'? hd => .pure hd
    · split
      · rename_i hkind
        exact h.kin_group hm (by rw [beq_iff_eq.mp hkind]; decide) hbeside _
      · split
        · rename_i hkind
          exact h.kin_group hm (by rw [beq_iff_eq.mp hkind]; decide) hbeside _
        · split
          · rename_i hkind
            exact h.kin_group hm (by rw [beq_iff_eq.mp hkind]; decide) hbeside _
          -- imports and the like declare nothing in either tree
          · exact .pure .nil

/-- **A source with comments inserted declares the same**, and what comments are inserted on is documented there. -/
theorem kin_declarations (h : Regrown t is t') :
    Matches (List.Forall₂ (Kin t is)) (declarations t) (declarations t') := by
  have hchildren := (List.forall₂_and_left _ _).mpr ⟨fun y hy => hy,
    h.children.beside (p := fun kind => declaringKinds.contains kind) (by decide) [] []⟩
  rw [declarations_eq, declarations_eq]
  refine Matches.bind (Matches.mapM hchildren fun y y' ⟨hy, hbeside⟩ => ?_)
    fun found found' hfound => .pure (List.rel_flatten hfound)
  exact h.kin_topLevel (mem_of_withBefore (List.mem_filter.mp hy).1) hbeside

end Regrown

end Docsmith.Go
