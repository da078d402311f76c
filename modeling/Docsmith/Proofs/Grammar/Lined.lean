import Docsmith.Proofs.Grammar.Yields

namespace Docsmith.Grammar

/-!
# Nodes in order

Whatever a grammar skips between its terminals, the nodes that it yields come in the order of the source.
A construct begins and ends where parts of it do, so that what is true of the ends of all terminals is true
of the ends of all nodes.

* `covering`: the node of a construct, and `wrap_eq`.
* `Lined`: nodes come one after another between two offsets, and their ends are of some sort.
* `Table.Yields.lined`: what a rule yields is lined, if what the terminals yield is.
* `Table.Yields.holds`: what is true of terminals and passes on to constructs is true of all nodes.
* `Ranged`: the parts of a node are lined between its ends, and `Table.passes_ranged`: those of all are.
-/

variable {P : Nat → Prop} {a b c : Nat} {xs ys : List Node} {n first : Node} {rest : List Node}

/-- The node of a construct that begins with some node. -/
def covering (kind : String) (first : Node) (rest : List Node) : Node :=
  .mk { kind := kind, extent := spanning first ((first :: rest).getLastD first) }
    ((first :: rest).filter (!isMark ·))

/-- A construct without code is what it was; else it is a node behind the comments in front. -/
theorem wrap_eq (kind : String) (xs : List Node) :
    wrap kind xs = match xs.dropWhile isExtra with
      | [] => xs
      | first :: rest => xs.takeWhile isExtra ++ [covering kind first rest] := by
  unfold wrap
  cases xs.dropWhile isExtra <;> rfl

/-! ### Nodes one after another -/

/-- The nodes come one after another between two offsets, and where each begins and ends is of some sort. -/
def Lined (P : Nat → Prop) : Nat → List Node → Nat → Prop
  | a, [], b => a ≤ b
  | a, n :: rest, b => (a ≤ n.start ∧ n.start ≤ n.stop) ∧ (P n.start ∧ P n.stop) ∧ Lined P n.stop rest b

namespace Lined

theorem le (h : Lined P a xs b) : a ≤ b := by
  induction xs generalizing a with
  | nil => exact h
  | cons n rest ih =>
    obtain ⟨⟨hstart, hstop⟩, -, hrest⟩ := h
    exact Nat.le_trans hstart (Nat.le_trans hstop (ih hrest))

/-- Nodes that are lined from an offset are so from an earlier one. -/
theorem from_le (h : Lined P b xs c) (hab : a ≤ b) : Lined P a xs c := by
  cases xs with
  | nil => exact Nat.le_trans hab h
  | cons n rest => exact ⟨⟨Nat.le_trans hab h.1.1, h.1.2⟩, h.2⟩

theorem append (h : Lined P a xs b) (h' : Lined P b ys c) : Lined P a (xs ++ ys) c := by
  induction xs generalizing a with
  | nil => exact h'.from_le h
  | cons n rest ih => exact ⟨h.1, h.2.1, ih h.2.2⟩

/-- Between the first and the last of some nodes there is an offset. -/
theorem split (h : Lined P a (xs ++ ys) b) : ∃ c, Lined P a xs c ∧ Lined P c ys b := by
  induction xs generalizing a with
  | nil => exact ⟨a, Nat.le_refl a, h⟩
  | cons n rest ih =>
    obtain ⟨c, hrest, hys⟩ := ih h.2.2
    exact ⟨c, ⟨h.1, h.2.1, hrest⟩, hys⟩

/-- Some of the nodes are lined as well. -/
theorem filter (h : Lined P a xs b) (p : Node → Bool) : Lined P a (xs.filter p) b := by
  induction xs generalizing a with
  | nil => exact h
  | cons n rest ih =>
    obtain ⟨hplace, hends, hrest⟩ := h
    rw [List.filter_cons]
    split
    · exact ⟨hplace, hends, ih hrest⟩
    · exact (ih hrest).from_le (Nat.le_trans hplace.1 hplace.2)

/-- Each of the nodes lies between the two offsets. -/
theorem mem (h : Lined P a xs b) (hn : n ∈ xs) :
    (a ≤ n.start ∧ n.start ≤ n.stop ∧ n.stop ≤ b) ∧ P n.start ∧ P n.stop := by
  induction xs generalizing a with
  | nil => cases hn
  | cons m rest ih =>
    obtain ⟨⟨hstart, hstop⟩, hends, hrest⟩ := h
    rcases List.mem_cons.mp hn with rfl | hn
    · exact ⟨⟨hstart, hstop, hrest.le⟩, hends⟩
    · obtain ⟨⟨hlow, hmiddle, hhigh⟩, hends'⟩ := ih hrest hn
      exact ⟨⟨by omega, hmiddle, hhigh⟩, hends'⟩

/-- Each of the nodes ends before the later ones begin. -/
theorem pairwise (h : Lined P a xs b) : xs.Pairwise fun m n => m.stop ≤ n.start := by
  induction xs generalizing a with
  | nil => exact .nil
  | cons n rest ih => exact List.pairwise_cons.mpr ⟨fun m hm => (h.2.2.mem hm).1.1, ih h.2.2⟩

/-- Nodes that are lined end with the last of them. -/
theorem to_last (h : Lined P a (first :: rest) b) :
    Lined P first.start (first :: rest) ((first :: rest).getLastD first).stop ∧
      P ((first :: rest).getLastD first).stop ∧ ((first :: rest).getLastD first).stop ≤ b := by
  induction rest generalizing a first with
  | nil => exact ⟨⟨⟨Nat.le_refl _, h.1.2⟩, h.2.1, Nat.le_refl _⟩, h.2.1.2, h.2.2⟩
  | cons m rest ih =>
    obtain ⟨hplace, hends, hrest⟩ := h
    obtain ⟨hlined, hlast, hend⟩ := ih hrest
    have hsame : (first :: m :: rest).getLastD first = (m :: rest).getLastD m := by
      simp only [List.getLastD_cons]
    rw [hsame]
    exact ⟨⟨⟨Nat.le_refl _, hplace.2⟩, hends, hlined.from_le hrest.1.1⟩, hlast, hend⟩

/-- A node that covers some nodes from the first one to the last takes their place. -/
theorem wrap (h : Lined P a xs b) (kind : String) : Lined P a (Grammar.wrap kind xs) b := by
  rw [wrap_eq]
  cases hdrop : xs.dropWhile isExtra with
  | nil => exact h
  | cons first rest =>
    have hsplit : xs = xs.takeWhile isExtra ++ first :: rest := by
      rw [← hdrop, List.takeWhile_append_dropWhile]
    rw [hsplit] at h
    obtain ⟨c, hextras, hbody⟩ := h.split
    obtain ⟨hcover, hlast, hend⟩ := hbody.to_last
    exact hextras.append ⟨⟨hbody.1.1, hcover.le⟩, ⟨hbody.2.1.1, hlast⟩, hend⟩

/-- A role does not move a node. -/
theorem assign (h : Lined P a xs b) (role : String) : Lined P a (Grammar.assign role xs) b := by
  induction xs generalizing a with
  | nil => exact h
  | cons n rest ih =>
    obtain ⟨hplace, hends, hrest⟩ := h
    show Lined P a ((if isExtra n || isMark n then n else n.withRole role) :: Grammar.assign role rest) b
    split
    · exact ⟨hplace, hends, ih hrest⟩
    · cases n
      exact ⟨hplace, hends, ih hrest⟩

end Lined

/-! ### Rules -/

section Rules

variable {τ ρ μ σ : Type} {g : Table τ ρ μ σ} {ad : Admitted τ ρ μ} {inv : σ → Prop} {m : μ}
  {r : Rule τ ρ μ} {s s' : σ}

/-- What covers a rule covers its parts. -/
theorem Admitted.Covers.part {r' : Rule τ ρ μ} (h : ad.Covers r) (hterminals : r'.terminals ⊆ r.terminals)
    (hconstructs : r'.constructs ⊆ r.constructs) : ad.Covers r' where
  terminals t ht := h.terminals t (hterminals ht)
  constructs c hc := h.constructs c (hconstructs hc)

/-- **What a rule yields is lined**, if what the terminals yield that it may speak of is. -/
theorem Table.Yields.lined (htable : ∀ p, ad.Covers (g.rule p))
    (hleaf : ∀ {m t s xs s'}, g.lexis.read m t s = .ok (xs, s') → ad.terminal t → inv s →
      Lined P (g.lexis.offset s) xs (g.lexis.offset s') ∧ inv s')
    (h : g.Yields m r s xs s') (hr : ad.Covers r) (hs : inv s) :
    Lined P (g.lexis.offset s) xs (g.lexis.offset s') ∧ inv s' := by
  -- by the way in which the rule was read; the invariant goes from one terminal to the next
  induction h with
  | term h => exact hleaf h (hr.terminals _ List.mem_cons_self) hs
  | call _ ih => exact ih (htable _) hs
  | empty => exact ⟨Nat.le_refl _, hs⟩
  | seq _ _ ih ih' =>
    obtain ⟨hfirst, hs'⟩ := ih (hr.part (List.subset_append_left _ _) (List.subset_append_left _ _)) hs
    obtain ⟨hsecond, hs''⟩ := ih' (hr.part (List.subset_append_right _ _) (List.subset_append_right _ _)) hs'
    exact ⟨hfirst.append hsecond, hs''⟩
  | left _ ih =>
    exact ih (hr.part (List.subset_append_left _ _) (List.subset_append_left _ _)) hs
  | right _ ih =>
    exact ih (hr.part (List.subset_append_right _ _) (List.subset_append_right _ _)) hs
  | stop => exact ⟨Nat.le_refl _, hs⟩
  | more _ _ ih ih' =>
    obtain ⟨hfirst, hs'⟩ := ih (hr.part (fun _ h => h) fun _ h => h) hs
    obtain ⟨hrest, hs''⟩ := ih' hr hs'
    exact ⟨hfirst.append hrest, hs''⟩
  | ahead => exact ⟨Nat.le_refl _, hs⟩
  | avoid => exact ⟨Nat.le_refl _, hs⟩
  | node _ ih =>
    obtain ⟨hinner, hs'⟩ := ih (hr.part (fun _ h => h) (List.subset_cons_self _ _)) hs
    exact ⟨hinner.wrap _, hs'⟩
  | @group _ kind _ _ xs _ _ ih =>
    obtain ⟨hinner, hs'⟩ := ih (hr.part (fun _ h => h) (List.subset_cons_self _ _)) hs
    rcases gather_cases kind xs with hgather | hgather
    · rw [hgather]; exact ⟨hinner, hs'⟩
    · rw [hgather]; exact ⟨hinner.wrap _, hs'⟩
  | role _ ih =>
    obtain ⟨hinner, hs'⟩ := ih (hr.part (fun _ h => h) fun _ h => h) hs
    exact ⟨hinner.assign _, hs'⟩
  | within _ ih => exact ih (hr.part (fun _ h => h) fun _ h => h) hs

/-- What is true of terminals, and of each construct whose parts it is true of. -/
structure Table.Passes (g : Table τ ρ μ σ) (ad : Admitted τ ρ μ) (inv : σ → Prop) (Q : Node → Prop) :
    Prop where
  role : ∀ n role, Q n → Q (n.withRole role)
  leaf : ∀ {m t s xs s'}, g.lexis.read m t s = .ok (xs, s') → ad.terminal t → inv s →
    (∀ x ∈ xs, x.children = [] ∧ Q x) ∧ inv s'
  construct : ∀ {kind r m s xs s' first rest}, ad.construct kind r → ad.Covers r → inv s →
    g.Yields m r s xs s' → (∀ x ∈ xs, Q x) → xs.dropWhile isExtra = first :: rest →
      Q (covering kind first rest)

variable {Q : Node → Prop}

/-- It is true of a construct and all its parts. -/
theorem Table.Passes.wrap (hpass : g.Passes ad inv Q) {kind : String} (hkind : ad.construct kind r)
    (hr : ad.Covers r) (hs : inv s) (h : g.Yields m r s xs s') (hall : ∀ x ∈ xs, ∀ n ∈ x.preorder, Q n) :
    ∀ x ∈ Grammar.wrap kind xs, ∀ n ∈ x.preorder, Q n := by
  have hself : ∀ x ∈ xs, Q x := fun x hx => hall x hx x (mem_preorder.mpr (.inl rfl))
  rw [wrap_eq]
  cases hdrop : xs.dropWhile isExtra with
  | nil => exact hall
  | cons first rest =>
    intro x hx n hn
    rcases List.mem_append.mp hx with hx | hx
    · exact hall x ((List.takeWhile_sublist _).subset hx) n hn
    · rw [List.mem_singleton.mp hx] at hn
      rcases mem_preorder.mp hn with rfl | ⟨c, hc, hn⟩
      · exact hpass.construct hkind hr hs h hself hdrop
      · have hmem : c ∈ xs.dropWhile isExtra := hdrop ▸ (List.mem_filter.mp hc).1
        exact hall c ((List.dropWhile_sublist _).subset hmem) n hn

/-- **What passes on to constructs is true of all nodes.** -/
theorem Table.Yields.holds (hpass : g.Passes ad inv Q) (htable : ∀ p, ad.Covers (g.rule p))
    (h : g.Yields m r s xs s') (hr : ad.Covers r) (hs : inv s) :
    (∀ x ∈ xs, ∀ n ∈ x.preorder, Q n) ∧ inv s' := by
  have hnone : ∀ x ∈ ([] : List Node), ∀ n ∈ x.preorder, Q n := fun x hx => by cases hx
  have happend {xs ys : List Node} (hxs : ∀ x ∈ xs, ∀ n ∈ x.preorder, Q n)
      (hys : ∀ x ∈ ys, ∀ n ∈ x.preorder, Q n) : ∀ x ∈ xs ++ ys, ∀ n ∈ x.preorder, Q n := fun x hx =>
    (List.mem_append.mp hx).elim (hxs x) (hys x)
  -- induction on the yield: terminals and constructions are the two places where a node is made
  induction h with
  | term h =>
    obtain ⟨hall, hs'⟩ := hpass.leaf h (hr.terminals _ List.mem_cons_self) hs
    refine ⟨fun x hx n hn => ?_, hs'⟩
    rcases mem_preorder.mp hn with rfl | ⟨c, hc, -⟩
    · exact (hall n hx).2
    · rw [(hall x hx).1] at hc
      cases hc
  | call _ ih => exact ih (htable _) hs
  | empty => exact ⟨hnone, hs⟩
  | seq _ _ ih ih' =>
    obtain ⟨hfirst, hs'⟩ := ih (hr.part (List.subset_append_left _ _) (List.subset_append_left _ _)) hs
    obtain ⟨hsecond, hs''⟩ := ih' (hr.part (List.subset_append_right _ _) (List.subset_append_right _ _)) hs'
    exact ⟨happend hfirst hsecond, hs''⟩
  | left _ ih =>
    exact ih (hr.part (List.subset_append_left _ _) (List.subset_append_left _ _)) hs
  | right _ ih =>
    exact ih (hr.part (List.subset_append_right _ _) (List.subset_append_right _ _)) hs
  | stop => exact ⟨hnone, hs⟩
  | more _ _ ih ih' =>
    obtain ⟨hfirst, hs'⟩ := ih (hr.part (fun _ h => h) fun _ h => h) hs
    obtain ⟨hrest, hs''⟩ := ih' hr hs'
    exact ⟨happend hfirst hrest, hs''⟩
  | ahead => exact ⟨hnone, hs⟩
  | avoid => exact ⟨hnone, hs⟩
  | @node _ _ inner _ _ _ h ih =>
    have hinner : ad.Covers inner := hr.part (fun _ h => h) (List.subset_cons_self _ _)
    obtain ⟨hall, hs'⟩ := ih hinner hs
    exact ⟨hpass.wrap (hr.constructs _ List.mem_cons_self) hinner hs h hall, hs'⟩
  | @group _ kind inner _ xs _ h ih =>
    have hinner : ad.Covers inner := hr.part (fun _ h => h) (List.subset_cons_self _ _)
    obtain ⟨hall, hs'⟩ := ih hinner hs
    -- a group of one part is that part, and then nothing new was made
    rcases gather_cases kind xs with hgather | hgather
    · rw [hgather]; exact ⟨hall, hs'⟩
    · rw [hgather]; exact ⟨hpass.wrap (hr.constructs _ List.mem_cons_self) hinner hs h hall, hs'⟩
  | role _ ih =>
    obtain ⟨hall, hs'⟩ := ih (hr.part (fun _ h => h) fun _ h => h) hs
    refine ⟨fun x hx n hn => ?_, hs'⟩
    rcases mem_assign hx with ⟨hx, -⟩ | ⟨y, hy, -, -, rfl⟩
    · exact hall x hx n hn
    -- giving the role touches the node only at its top; below it the nodes are those already covered
    · rcases mem_preorder.mp hn with rfl | ⟨c, hc, hn⟩
      · exact hpass.role y _ (hall y hy y (mem_preorder.mpr (.inl rfl)))
      · rw [children_withRole] at hc
        exact hall y hy n (mem_preorder.mpr (.inr ⟨c, hc, hn⟩))
  | within _ ih => exact ih (hr.part (fun _ h => h) fun _ h => h) hs

/-- The parts of a node come one after another between its ends, and these are of some sort. -/
structure Ranged (P : Nat → Prop) (n : Node) : Prop where
  ends : P n.start ∧ P n.stop
  parts : Lined P n.start n.children n.stop

/-- **The parts of every node are lined**, if what terminals yield is. -/
theorem Table.passes_ranged (htable : ∀ p, ad.Covers (g.rule p))
    (hnone : ∀ {m t s xs s'}, g.lexis.read m t s = .ok (xs, s') → ∀ x ∈ xs, x.children = [])
    (hleaf : ∀ {m t s xs s'}, g.lexis.read m t s = .ok (xs, s') → ad.terminal t → inv s →
      Lined P (g.lexis.offset s) xs (g.lexis.offset s') ∧ inv s') : g.Passes ad inv (Ranged P) where
  role n role h := by
    cases n
    exact ⟨h.ends, h.parts⟩
  leaf h ht hs := by
    obtain ⟨hlined, hs'⟩ := hleaf h ht hs
    -- a leaf has no children, so its range needs no parts
    refine ⟨fun x hx => ⟨hnone h x hx, (hlined.mem hx).2, ?_⟩, hs'⟩
    rw [hnone h x hx]
    exact (hlined.mem hx).1.2.1
  construct {_ _ _ _ xs _ _ _} _ hr hs h _ hdrop := by
    have hlined := (h.lined htable hleaf hr hs).1
    -- the comments before the first part go out of the node, and the node begins with that part
    rw [← List.takeWhile_append_dropWhile (p := isExtra) (l := xs), hdrop] at hlined
    obtain ⟨c, -, hbody⟩ := hlined.split
    obtain ⟨hcover, hlast, -⟩ := hbody.to_last
    exact ⟨⟨hbody.2.1.1, hlast⟩, hcover.filter (!isMark ·)⟩

end Rules

end Docsmith.Grammar
