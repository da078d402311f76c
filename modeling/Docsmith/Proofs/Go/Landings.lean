import Docsmith.Proofs.Go.Sites

namespace Docsmith.Go

open Grammar

/-!
# Where comments stand among one another

The comments on the declarations of a source that stand in front of what they are on, or of the construct that
holds it, stand in the order of the declarations.

* `Open`: a declaration without documentation whose comment stands in front of it.
* `Seated`: the comments on some declarations stand in a stretch of code, one behind another.
* `seated_interfaceMethods`, `seated_typeSpec`, `seated_group`: the declarations of a construct are seated in it.
* `landings_increase`: those of a source stand one behind another.
-/

variable {t : SourceTree} {top decl n : Node} {d e : Declaration} {ds : List Declaration} {x : List Node × Node}
  {a b : Nat}

/-- The declaration is without documentation, and a comment on it stands in front of it, or of the construct at the top
    level that holds it. -/
structure Open (t : SourceTree) (d : Declaration) : Prop where
  vacant : d.slot.hasDoc = false
  lands : t.Lands d

/-- The comment on a declaration stands before that on another one. -/
def Leads (t : SourceTree) (d e : Declaration) : Prop := Open t d → Open t e → d.landing t.code < e.landing t.code

/-- The comments on some declarations stand in a stretch of code, one behind another. -/
structure Seated (t : SourceTree) (a b : Nat) (ds : List Declaration) : Prop where
  within : ∀ d ∈ ds, Open t d → a ≤ d.landing t.code ∧ d.landing t.code < b
  leads : ds.Pairwise (Leads t)

namespace Seated

theorem nil : Seated t a b [] := ⟨List.forall_mem_nil _, .nil⟩

theorem singleton (h : Open t d → a ≤ d.landing t.code ∧ d.landing t.code < b) : Seated t a b [d] :=
  ⟨List.forall_mem_singleton.mpr h, List.pairwise_singleton _ _⟩

/-- Stretches that come one after another hold comments that do. -/
theorem leads_of_le {es : List Declaration} {a' b' : Nat} (h : Seated t a b ds) (h' : Seated t a' b' es)
    (hle : b ≤ a') : ∀ d ∈ ds, ∀ e ∈ es, Leads t d e := by
  intro d hd e he hopen hopen'
  have hd := h.within d hd hopen
  have he := h'.within e he hopen'
  omega

/-- A wider stretch. -/
theorem mono {a' b' : Nat} (h : Seated t a b ds) (ha : a' ≤ a) (hb : b ≤ b') : Seated t a' b' ds where
  within d hd hopen := by
    have hd := h.within d hd hopen
    omega
  leads := h.leads

theorem append {m : Nat} {es : List Declaration} (h : Seated t a m ds) (h' : Seated t m b es) (ha : a ≤ m)
    (hb : m ≤ b) : Seated t a b (ds ++ es) where
  within := List.forall_mem_append.mpr
    ⟨(h.mono (Nat.le_refl a) hb).within, (h'.mono ha (Nat.le_refl b)).within⟩
  leads := List.pairwise_append.mpr ⟨h.leads, h'.leads, h.leads_of_le h' (Nat.le_refl m)⟩

/-- **What some nodes declare**, one behind another, if each of them has a stretch of its own for it. -/
theorem of_mapM {α : Type} {f : List Node × Node → Except Failure α} {out : α → List Declaration}
    {xs : List (List Node × Node)} (first : List Node × Node → Nat)
    (hf : ∀ x ∈ xs, Returns (f x) fun y => Seated t (first x) x.2.stop (out y))
    (hxs : xs.Pairwise fun x y => x.2.stop ≤ first y) (hin : ∀ x ∈ xs, a ≤ first x ∧ x.2.stop ≤ b) :
    Returns (xs.mapM f) fun ys => Seated t a b (ys.flatMap out) := by
  intro ys hys
  obtain ⟨hleads, hmem⟩ := Returns.mapM_pairwise
    (P := fun x y => x ∈ xs ∧ Seated t (first x) x.2.stop (out y))
    (R := fun y z => ∀ d ∈ out y, ∀ e ∈ out z, Leads t d e) (fun x hx y hy => ⟨hx, hf x hx y hy⟩) hxs
    (fun _ _ _ _ hle hy hz => hy.2.leads_of_le hz.2 hle) ys hys
  have hseated (y : α) (hy : y ∈ ys) : Seated t a b (out y) := by
    obtain ⟨x, -, hx, hseated⟩ := hmem y hy
    exact hseated.mono (hin x hx).1 (hin x hx).2
  refine ⟨fun d hd => ?_, List.pairwise_flatMap.mpr ⟨fun y hy => (hseated y hy).leads, hleads⟩⟩
  obtain ⟨y, hy, hd⟩ := List.mem_flatMap.mp hd
  exact (hseated y hy).within d hd

end Seated

/-- Children stand one behind another. -/
theorem pairwise_children (h : t.Regular) (hn : n ∈ t.root.preorder) :
    (withBefore [] n.children).Pairwise fun x y => x.2.stop ≤ y.2.start := by
  rw [← List.pairwise_map (f := Prod.snd) (R := fun x y : Node => x.stop ≤ y.start), map_withBefore]
  exact (h.aligned hn).ordered

/-- A method of an interface is told of in front of it. -/
theorem landing_of_method (h : t.Regular) (hm : top ∈ t.root.children) (hd : d.start < d.stop)
    (hin : top.start ≤ d.start ∧ d.stop ≤ top.stop) (hkind : d.kind = .interfaceMethod) (hopen : Open t d) :
    d.landing t.code = d.start :=
  (landing_of_lands h hm hd hin hopen.lands).resolve_right fun hother => hother.1 hkind

/-- The methods of an interface stand behind its keyword. -/
theorem seated_interfaceMethods (h : Shaped t) (hm : top ∈ t.root.children) (hn : n ∈ top.preorder)
    (hkind : n.kind = "interface_type") (owner : String) :
    Returns (interfaceMethods t owner n) (Seated t (n.start + 1) n.stop) := by
  obtain ⟨first, rest, hchildren, hfirst, -⟩ :=
    (h.formed top hm n hn).opening ("interface_type", "interface") (by decide) hkind
  have hbegins : first ∈ n.children := by rw [hchildren]; exact List.mem_cons_self
  -- the keyword is a token of its own, so the methods begin behind the interface's start
  have hkeyword := h.solid hm (preorder_child hn hbegins)
  have hbefore := h.regular.inside n (h.part hm hn) first hbegins
  have hall : Returns (interfaceMethods t owner n) fun ds =>
      Seated t (n.start + 1) n.stop (ds.flatMap ([·])) := by
    refine Seated.of_mapM (·.2.start) (fun x hx => ?_)
      ((pairwise_children h.regular (h.part hm hn)).sublist List.filter_sublist) fun x hx => ?_
    · have hpart := preorder_child hn (mem_of_withBefore (List.mem_filter.mp hx).1)
      have hsolid := h.solid hm hpart
      -- a method is landed on where it starts, and it starts where it is seated
      refine (Returns.of_any _).bind fun name _ => .pure (.singleton fun hopen => ?_)
      rw [landing_of_method h.regular hm hsolid (h.inside hm hpart) rfl hopen]
      exact ⟨Nat.le_refl _, hsolid⟩
    · obtain ⟨hmem, helem⟩ := List.mem_filter.mp hx
      have hbehind := (h.behind_first hm hn hchildren hmem (by rw [hfirst]; exact (methodKinds_plain helem).2.1)).2
      have hin := h.regular.inside n (h.part hm hn) x.2 (mem_of_withBefore hmem)
      omega
  -- `interfaceMethods` gives a list for each method; here each is one declaration alone
  exact fun ds hds => by rw [← List.flatMap_singleton' ds]; exact hall ds hds

/-- The comment on a declaration, and those on the methods of its interface. -/
theorem seated_typeSpec (h : Shaped t) (hm : top ∈ t.root.children) (hn : n ∈ top.preorder) {slot : DocSlot}
    {keyword : String} (ha : a ≤ n.start + 1)
    (hself : ∀ d : Declaration, d.slot = slot → d.start = n.start → d.stop = n.stop → Open t d →
      a ≤ d.landing t.code ∧ d.landing t.code ≤ n.start) : Returns (typeSpec t keyword slot n) (Seated t a n.stop) := by
  have hsolid := h.solid hm hn
  -- the type itself is seated at its start, before every method below it
  have hone (d : Declaration) (hslot : d.slot = slot) (hstart : d.start = n.start) (hstop : d.stop = n.stop) :
      Seated t a (n.start + 1) [d] := .singleton fun hopen => by
    have hd := hself d hslot hstart hstop hopen
    omega
  refine (Returns.of_any _).bind fun name _ => ?_
  dsimp only
  -- only an interface adds declarations of its own, which stand in its body
  cases hchild : n.child? "type" with
  | none => exact .pure ((hone _ rfl rfl rfl).mono (Nat.le_refl a) hsolid)
  | some body =>
    dsimp only
    split
    · rename_i hkind
      have hbody : body ∈ n.children := List.mem_of_find?_eq_some hchild
      have hin := h.regular.inside n (h.part hm hn) body hbody
      refine (seated_interfaceMethods h hm (preorder_child hn hbody) (beq_iff_eq.mp hkind) name).bind
        fun methods hmethods => .pure ?_
      exact (hone _ rfl rfl rfl).append (hmethods.mono (by omega) hin.2) ha hsolid
    · exact .pure ((hone _ rfl rfl rfl).mono (Nat.le_refl a) hsolid)

theorem seated_valueSpec (h : Shaped t) (hm : top ∈ t.root.children) (hn : n ∈ top.preorder) {slot : DocSlot}
    {keyword : String}
    (hself : ∀ d : Declaration, d.slot = slot → d.start = n.start → d.stop = n.stop → Open t d →
      a ≤ d.landing t.code ∧ d.landing t.code ≤ n.start) :
    Returns (valueSpec t keyword slot n) (Seated t a n.stop) := by
  have hsolid := h.solid hm hn
  refine (Returns.of_any _).bind fun names _ => ?_
  split
  · exact .pure .nil
  · refine .pure (.singleton fun hopen => ?_)
    have hd := hself _ rfl rfl rfl hopen
    omega

/-- Members stand one behind another. -/
theorem pairwise_specs (h : Shaped t) (hparse : parse t.code = .ok t.root) (hm : decl ∈ t.root.children)
    (hkind : groupKinds.contains decl.kind = true) :
    (specs decl).Pairwise fun x y => x.2.stop ≤ y.2.start ∧ ((specs decl).length == 1) = false := by
  by_cases hmany : 2 ≤ (specs decl).length
  · have hgrouped := grouped_of_parse (t := { code := t.code, root := t.root }) (parseTree_of_parse hparse) hm
      (List.contains_iff_mem.mp hkind) hmany
    obtain ⟨n, hn, hsiblings⟩ := memberSiblings_eq decl
    rw [hgrouped.specs_eq, ← hsiblings]
    refine ((pairwise_children h.regular (h.part hm hn)).sublist List.filter_sublist).imp fun hle => ⟨hle, ?_⟩
    rw [hsiblings, ← hgrouped.specs_eq, beq_eq_false_iff_ne]
    omega
  · match specs decl, hmany with
    | [], _ => exact .nil
    | [x], _ => exact List.pairwise_singleton _ _
    | x :: y :: rest, hmany => exact absurd (by simp) hmany

/-- The comments on the members of a group. -/
theorem seated_group (h : Shaped t) (hparse : parse t.code = .ok t.root) (hm : decl ∈ t.root.children)
    (hkind : groupKinds.contains decl.kind = true) (keyword : String) (outer : List Node) :
    Returns (group t keyword outer decl) (Seated t decl.start decl.stop) := by
  -- a sole member may be told of in front of the group
  let first (x : List Node × Node) : Nat := if (specs decl).length == 1 then decl.start else x.2.start
  have hmember : ∀ x ∈ specs decl, x.2 ∈ decl.preorder ∧ decl.start ≤ first x ∧ first x ≤ x.2.start ∧
      ∀ d : Declaration, d.slot = memberSlot t outer decl x → d.start = x.2.start → d.stop = x.2.stop → Open t d →
        first x ≤ d.landing t.code ∧ d.landing t.code ≤ x.2.start := by
    intro x hx
    obtain ⟨n, hn, hmem⟩ := mem_specs (show (x.1, x.2) ∈ specs decl from hx)
    have hpart := preorder_child hn (mem_of_withBefore hmem)
    have hin := h.inside hm hpart
    have hfirst : decl.start ≤ first x ∧ first x ≤ x.2.start := by
      dsimp only [first]
      split <;> omega
    refine ⟨hpart, hfirst.1, hfirst.2, fun d hslot hstart hstop hopen => ?_⟩
    rcases h.landing_of_member hm hn hmem hslot hstart hstop hopen.vacant hopen.lands with hland | ⟨hsole, hland⟩
    · omega
    · dsimp only [first]
      rw [if_pos hsole]
      omega
  have hmembers : Returns ((specs decl).mapM fun x =>
      if keyword == "type" then typeSpec t keyword (memberSlot t outer decl x) x.2
      else valueSpec t keyword (memberSlot t outer decl x) x.2) fun found =>
        Seated t decl.start decl.stop (found.flatMap id) := by
    refine Seated.of_mapM first (fun x hx => ?_) ?_ fun x hx => ?_
    · obtain ⟨hpart, -, hle, hself⟩ := hmember x hx
      split
      · exact seated_typeSpec h hm hpart (by omega) hself
      · exact seated_valueSpec h hm hpart hself
    · refine (pairwise_specs h hparse hm hkind).imp fun {x y} ⟨hle, hmany⟩ => ?_
      dsimp only [first]
      rw [hmany]
      exact hle
    · exact ⟨(hmember x hx).2.1, (h.inside hm (hmember x hx).1).2⟩
  refine hmembers.bind fun found hfound => .pure ?_
  rwa [List.flatMap_id] at hfound

/-- The comments on the declarations of a construct. -/
theorem seated_topLevel (h : Shaped t) (hparse : parse t.code = .ok t.root) (hm : top ∈ t.root.children)
    (outer : List Node) : Returns (topLevel t outer top) (Seated t top.start top.stop) := by
  have hself : top ∈ top.preorder := mem_preorder.mpr (.inl rfl)
  have hsolid := h.solid hm hself
  -- a declaration alone at the top level covers its node, wherever in it the slot lands
  have hone (d : Declaration) (hstart : d.start = top.start) (hstop : d.stop = top.stop) :
      Seated t top.start top.stop [d] := .singleton fun hopen => by
    rcases landing_of_lands h.regular hm (by omega) (by omega) hopen.lands with hland | ⟨-, hland⟩ <;> omega
  unfold topLevel
  -- a function, a method or a group; a method without a receiver declares nothing
  split
  · refine Returns.bind (P := fun d => Seated t top.start top.stop [d]) ?_ fun d hd => .pure hd
    exact (Returns.of_any _).bind fun name _ => .pure (hone _ rfl rfl)
  · split
    · refine Returns.bind (P := fun d? : Option Declaration => Seated t top.start top.stop d?.toList) ?_
        fun d? hd => .pure hd
      refine (Returns.of_any _).bind fun owner? _ => ?_
      split
      · exact .pure .nil
      · exact (Returns.of_any _).bind fun name _ => .pure (hone _ rfl rfl)
    · split
      · rename_i hkind
        exact seated_group h hparse hm (by rw [beq_iff_eq.mp hkind]; decide) _ outer
      · split
        · rename_i hkind
          exact seated_group h hparse hm (by rw [beq_iff_eq.mp hkind]; decide) _ outer
        · split
          · rename_i hkind
            exact seated_group h hparse hm (by rw [beq_iff_eq.mp hkind]; decide) _ outer
          · exact .pure .nil

/-- **The comments on the declarations of a source stand one behind another.** -/
theorem landings_increase (hparse : parse t.code = .ok t.root) :
    Returns (declarations t) fun ds => ds.Pairwise (Leads t) := by
  have h := shaped_of_parse hparse
  have hroot : t.root ∈ t.root.preorder := mem_preorder.mpr (.inl rfl)
  have hfound : Returns ((withBefore [] t.root.children).mapM fun x => topLevel t x.1 x.2) fun found =>
      Seated t t.root.start t.root.stop (found.flatMap id) := by
    refine Seated.of_mapM (·.2.start) (fun x hx => seated_topLevel h hparse (mem_of_withBefore hx) x.1)
      (pairwise_children h.regular hroot) fun x hx => ?_
    exact h.regular.inside t.root hroot x.2 (mem_of_withBefore hx)
  refine hfound.bind fun found hfound => .pure ?_
  rw [List.flatMap_id] at hfound
  exact hfound.leads

end Docsmith.Go
