import Docsmith.Proofs.Doc.Places
import Docsmith.Proofs.Grammar.Place
import Docsmith.Proofs.Grammar.Yields

namespace Docsmith.Grammar

/-!
# How nodes lie in a source

A grammar that skips nothing but white space between its terminals yields nodes that lie in the source one
after another with only white space between them.  When each terminal shows where it ends, each construct
does, for it ends with a terminal.

* `Gap`: only white space is between two offsets.
* `Laid`: nodes lie one after another between two offsets, with gaps between them.
* `Fine`: the rows of a node are those of its offsets, and it shows where it ends.
* `Placed`: nodes are laid, and all of their parts are fine.
* `Place.Within`: a place is one of a source.
* `regular_of_placed`: a tree whose nodes are placed is regular.
* `Table.Yields.placed`: what a rule yields is placed, if its terminals are.
-/

variable {code : Bytes} {a b c : Nat} {xs ys : List Node} {n : Node}

/-! ### Gaps -/

/-- The second offset is not before the first, and only white space is between them; what is before the
    first token of a source does not matter. -/
structure Gap (code : Bytes) (a b : Nat) : Prop where
  le : a ≤ b
  blank : a = 0 ∨ Bytes.blank (code.slice a b) = true

theorem Gap.refl (code : Bytes) (a : Nat) : Gap code a a := by
  refine ⟨Nat.le_refl a, .inr ?_⟩
  rw [Bytes.slice_nat, List.drop_eq_nil_of_le (List.length_take_le ..)]
  rfl

/-- The bytes between two offsets are those up to one between them and those from there on. -/
theorem slice_append (code : Bytes) (hab : a ≤ b) (hbc : b ≤ c) :
    code.slice a c = code.slice a b ++ code.slice b c := by
  have hsplit := (List.take_append_drop (b - a) ((code.take c).drop a)).symm
  rw [List.drop_drop, Nat.add_sub_cancel' hab, ← List.drop_take, List.take_take, Nat.min_eq_left hbc]
    at hsplit
  simpa only [Bytes.slice_nat] using hsplit

theorem Gap.trans (h : Gap code a b) (h' : Gap code b c) : Gap code a c := by
  refine ⟨Nat.le_trans h.le h'.le, ?_⟩
  by_cases ha : a = 0
  · exact .inl ha
  · -- only the first of the two could begin with the source
    have hle := h.le
    rw [slice_append code h.le h'.le, Bytes.blank, List.all_append, Bool.and_eq_true]
    exact .inr ⟨h.blank.resolve_left ha, h'.blank.resolve_left (by omega)⟩

/-! ### Nodes one after another -/

/-- The nodes lie one after another between two offsets, none of them is empty, and only white space is
    between them. -/
def Laid (code : Bytes) : Nat → List Node → Nat → Prop
  | a, [], b => Gap code a b
  | a, n :: rest, b => Gap code a n.start ∧ n.start < n.stop ∧ Laid code n.stop rest b

namespace Laid

theorem le (h : Laid code a xs b) : a ≤ b := by
  induction xs generalizing a with
  | nil => exact Gap.le h
  | cons n rest ih =>
    obtain ⟨hgap, hsize, hrest⟩ := h
    have hstart := hgap.le
    have hend := ih hrest
    omega

/-- Nodes that are laid from an offset are so from one before a gap. -/
theorem from_gap (h : Laid code b xs c) (hab : Gap code a b) : Laid code a xs c := by
  cases xs with
  | nil => exact hab.trans h
  | cons n rest => exact ⟨hab.trans h.1, h.2⟩

theorem append (h : Laid code a xs b) (h' : Laid code b ys c) : Laid code a (xs ++ ys) c := by
  induction xs generalizing a with
  | nil => exact h'.from_gap h
  | cons n rest ih => exact ⟨h.1, h.2.1, ih h.2.2⟩

/-- Between the first and the last of some nodes there is an offset. -/
theorem split (h : Laid code a (xs ++ ys) b) : ∃ c, Laid code a xs c ∧ Laid code c ys b := by
  induction xs generalizing a with
  | nil => exact ⟨a, Gap.refl code a, h⟩
  | cons n rest ih =>
    obtain ⟨c, hrest, hys⟩ := ih h.2.2
    exact ⟨c, ⟨h.1, h.2.1, hrest⟩, hys⟩

/-- Each of the nodes lies between the two offsets. -/
theorem mem (h : Laid code a xs b) (hn : n ∈ xs) : a ≤ n.start ∧ n.start < n.stop ∧ n.stop ≤ b := by
  induction xs generalizing a with
  | nil => cases hn
  | cons m rest ih =>
    obtain ⟨hgap, hsize, hrest⟩ := h
    have hstart := hgap.le
    rcases List.mem_cons.mp hn with rfl | hn
    · exact ⟨hstart, hsize, hrest.le⟩
    · obtain ⟨hlow, hmiddle, hhigh⟩ := ih hrest hn
      exact ⟨by omega, hmiddle, hhigh⟩

/-- Each of the nodes ends before the later ones begin. -/
theorem pairwise (h : Laid code a xs b) : xs.Pairwise fun m n => m.stop ≤ n.start := by
  induction xs generalizing a with
  | nil => exact .nil
  | cons n rest ih => exact List.pairwise_cons.mpr ⟨fun m hm => (h.2.2.mem hm).1, ih h.2.2⟩

/-- Nodes that are laid end with the last of them, and a gap behind it. -/
theorem to_last (h : Laid code a (n :: xs) b) :
    Laid code n.start (n :: xs) ((n :: xs).getLastD n).stop ∧
      Gap code ((n :: xs).getLastD n).stop b := by
  induction xs generalizing a n with
  | nil => exact ⟨⟨.refl _ _, h.2.1, .refl _ _⟩, h.2.2⟩
  | cons m rest ih =>
    obtain ⟨hgap, hsize, hrest⟩ := h
    obtain ⟨hlaid, hend⟩ := ih hrest
    have hlast : (n :: m :: rest).getLastD n = (m :: rest).getLastD m := by
      simp only [List.getLastD_cons]
    rw [hlast]
    exact ⟨⟨.refl _ _, hsize, hlaid.from_gap hrest.1⟩, hend⟩

/-- Nodes that are laid are spaced. -/
theorem spaced (h : Laid code a xs b) : code.spaced xs = true := by
  induction xs generalizing a with
  | nil => rfl
  | cons n rest ih =>
    obtain ⟨hgap, hsize, hrest⟩ := h
    have hspaced := ih hrest
    cases rest with
    | nil => simpa [Bytes.spaced] using Nat.le_of_lt hsize
    | cons m rest =>
      have hnext := hrest.1
      simp only [Bytes.spaced, Bool.and_eq_true, decide_eq_true_eq]
      exact ⟨⟨⟨Nat.le_of_lt hsize, hnext.le⟩, hnext.blank.resolve_left (by omega)⟩, hspaced⟩

end Laid

/-! ### Nodes with their rows -/

/-- The node is no mark, its rows are those of its offsets, and it shows where it ends.  Its children, if it
    has any, are laid between its ends. -/
structure Fine (code : Bytes) (n : Node) : Prop where
  mark : isMark n = false
  row : n.row = code.rowAt n.start
  lastRow : n.lastRow = code.rowAt n.stop
  shows : code.Shows n.start n.stop
  children : n.children = [] ∨ Laid code n.start n.children n.stop

/-- The nodes are laid between two offsets, and all their parts are fine. -/
structure Placed (code : Bytes) (a : Nat) (xs : List Node) (b : Nat) : Prop where
  laid : Laid code a xs b
  fine : ∀ x ∈ xs, ∀ n ∈ x.preorder, Fine code n

namespace Placed

theorem nil (h : Gap code a b) : Placed code a [] b := ⟨h, fun x hx => by cases hx⟩

theorem from_gap (h : Placed code b xs c) (hab : Gap code a b) : Placed code a xs c :=
  ⟨h.laid.from_gap hab, h.fine⟩

theorem append (h : Placed code a xs b) (h' : Placed code b ys c) : Placed code a (xs ++ ys) c := by
  refine ⟨h.laid.append h'.laid, fun x hx => ?_⟩
  rcases List.mem_append.mp hx with hx | hx
  · exact h.fine x hx
  · exact h'.fine x hx

/-- A node that covers some nodes from the first one to the last takes their place. -/
theorem wrap (h : Placed code a xs b) {kind : String} (hkind : kind ≠ markKind) :
    Placed code a (Grammar.wrap kind xs) b := by
  -- the comments in front stay outside the node, so that it begins with what follows them
  have hsplit : xs = xs.takeWhile isExtra ++ xs.dropWhile isExtra :=
    List.takeWhile_append_dropWhile.symm
  have hlaid := h.laid
  rw [hsplit] at hlaid
  obtain ⟨c, hextras, hbody⟩ := hlaid.split
  have hmem : ∀ x ∈ xs.dropWhile isExtra, x ∈ xs := (List.dropWhile_sublist _).subset
  cases hdrop : xs.dropWhile isExtra with
  | nil =>
    simp only [Grammar.wrap, hdrop]
    exact h
  | cons first rest =>
    rw [hdrop] at hbody hmem
    obtain ⟨hcover, hend⟩ := hbody.to_last
    have hlast : (first :: rest).getLastD first ∈ first :: rest := by
      rw [List.getLastD_cons]
      exact List.getLastD_mem_cons
    have hself (x : Node) (hx : x ∈ first :: rest) : Fine code x :=
      h.fine x (hmem x hx) x (mem_preorder.mpr (.inl rfl))
    simp only [Grammar.wrap, hdrop]
    generalize (first :: rest).getLastD first = last at hcover hend hlast
    have hstart := (hcover.mem hlast).1
    have hsize := (hcover.mem hlast).2.1
    refine ⟨hextras.append ⟨hbody.1, ?_, hend⟩, fun x hx => ?_⟩
    · show first.start < last.stop
      omega
    · rcases List.mem_append.mp hx with hx | hx
      · exact h.fine x ((List.takeWhile_sublist _).subset hx)
      · rw [List.mem_singleton.mp hx]
        -- no part of the body is a mark
        have hall : (first :: rest).filter (!isMark ·) = first :: rest :=
          List.filter_eq_self.mpr fun y hy => by simp [(hself y hy).mark]
        rw [hall]
        intro m hm
        rcases mem_preorder.mp hm with rfl | ⟨y, hy, hm⟩
        · exact {
            mark := by simpa [isMark, Node.kind, Node.label] using hkind
            row := (hself first List.mem_cons_self).row
            lastRow := (hself last hlast).lastRow
            shows := Bytes.Shows.mono (hself last hlast).shows hstart
            children := .inr hcover }
        · exact h.fine y (hmem y hy) m hm

theorem assign (h : Placed code a xs b) (role : String) : Placed code a (Grammar.assign role xs) b := by
  constructor
  · -- a role does not move a node
    have hlaid := h.laid
    clear h
    induction xs generalizing a with
    | nil => exact hlaid
    | cons n rest ih =>
      obtain ⟨hgap, hsize, hrest⟩ := hlaid
      show Laid code a ((if isExtra n || isMark n then n else n.withRole role) ::
        Grammar.assign role rest) b
      split
      · exact ⟨hgap, hsize, ih hrest⟩
      · cases n
        exact ⟨hgap, hsize, ih hrest⟩
  · intro x hx m hm
    rcases mem_assign hx with ⟨hx, -⟩ | ⟨y, hy, -, -, rfl⟩
    · exact h.fine x hx m hm
    · rcases mem_preorder.mp hm with rfl | ⟨z, hz, hm⟩
      · have hfine := h.fine y hy y (mem_preorder.mpr (.inl rfl))
        cases y
        exact ⟨hfine.mark, hfine.row, hfine.lastRow, hfine.shows, hfine.children⟩
      · refine h.fine y hy m (mem_preorder.mpr (.inr ⟨z, ?_, hm⟩))
        cases y
        exact hz

end Placed

/-! ### Places -/

/-- The place is one of a source: what is left to read is what the source has from its offset on, and its
    row is that of its offset. -/
structure Place.Within (code : Bytes) (p : Place) : Prop where
  rest : p.rest = code.drop p.offset
  row : p.row = code.rowAt p.offset
  bounded : p.offset ≤ code.length

namespace Place.Within

variable {p : Place}

theorem origin (code : Bytes) : (Place.origin code).Within code where
  rest := rfl
  row := rfl
  bounded := Nat.zero_le _

theorem length_rest (h : p.Within code) : p.rest.length = code.length - p.offset := by
  rw [h.rest, List.length_drop]

/-- The bytes at the head of a place are those of the source from its offset on. -/
theorem take_rest (h : p.Within code) (n : Nat) :
    p.rest.take n = (code.take (p.offset + n)).drop p.offset := by
  rw [h.rest, List.drop_take, Nat.add_sub_cancel_left]

theorem getElem?_rest (h : p.Within code) (i : Nat) : p.rest[i]? = code[p.offset + i]? := by
  rw [h.rest, List.getElem?_drop]

theorem advance (h : p.Within code) (n : Nat) : (p.advance n).Within code := by
  have hlength := h.length_rest
  have hbounded := h.bounded
  have hoffset := offset_advance n p
  constructor
  · rw [rest_advance, hoffset]
    -- the end of the source is not passed
    rcases Nat.le_total n p.rest.length with hn | hn
    · rw [Nat.min_eq_left hn, h.rest, List.drop_drop]
    · rw [Nat.min_eq_right hn, List.drop_eq_nil_of_le hn, List.drop_eq_nil_of_le (by omega)]
  · have hrow := Bytes.rowAt_add code (Nat.le_add_right p.offset (min n p.rest.length))
    rw [row_advance, hoffset, hrow, h.row, ← h.take_rest]
    congr 2
    rw [← List.take_take, List.take_length]
  · omega

theorem leads {q : Place} (h : p.Within code) (hq : p.Leads q) : q.Within code := by
  obtain ⟨n, rfl⟩ := hq
  exact h.advance n

/-- **The node of some bytes is placed** if it shows where it ends. -/
theorem placed_leaf {kind : String} {named : Bool} {size : Nat} (h : p.Within code) (hkind : kind ≠ markKind)
    (hshows : code.Shows p.offset (p.advance size).offset) :
    Placed code p.offset [p.leaf kind named size] (p.advance size).offset := by
  have hlt : p.offset < (p.advance size).offset := by
    obtain ⟨i, -, hlow, hhigh, -⟩ := hshows
    omega
  refine ⟨⟨.refl _ _, hlt, .refl _ _⟩, fun x hx n hn => ?_⟩
  rw [List.mem_singleton.mp hx] at hn
  rcases mem_preorder.mp hn with rfl | ⟨c, hc, -⟩
  · exact {
      mark := by simpa [isMark, Node.kind, Node.label, leaf] using hkind
      row := h.row
      lastRow := (h.advance size).row
      shows := hshows
      children := .inl rfl }
  · cases hc

end Place.Within

/-! ### Trees -/

/-- **A tree whose nodes are placed is regular.** -/
theorem regular_of_placed {t : SourceTree} (h : Placed t.code t.root.start t.root.children t.root.stop)
    (hbounded : t.root.stop ≤ t.code.length) : t.Regular := by
  -- the root is laid by hypothesis, and every node below it by the row it stands in
  have hlaid (n : Node) (hn : n ∈ t.root.preorder) :
      n.children = [] ∨ Laid t.code n.start n.children n.stop := by
    rcases mem_preorder.mp hn with rfl | ⟨x, hx, hn⟩
    · exact .inr h.laid
    · exact (h.fine x hx n hn).children
  have hmem (n : Node) (hn : n ∈ t.root.preorder) (c : Node) (hc : c ∈ n.children) :
      n.start ≤ c.start ∧ c.start < c.stop ∧ c.stop ≤ n.stop := by
    rcases hlaid n hn with hnil | hlaid
    · rw [hnil] at hc
      cases hc
    · exact hlaid.mem hc
  have hfine (n : Node) (hn : n ∈ t.root.preorder) (c : Node) (hc : c ∈ n.children) : Fine t.code c := by
    rcases mem_preorder.mp hn with rfl | ⟨x, hx, hn⟩
    · exact h.fine c hc c (mem_preorder.mpr (.inl rfl))
    · exact h.fine x hx c (preorder_child hn hc)
  constructor
  case bounded => exact hbounded
  case inside => exact fun n hn c hc => ⟨(hmem n hn c hc).1, (hmem n hn c hc).2.2⟩
  case solid => exact fun n hn c hc => (hmem n hn c hc).2.1
  case rows => exact fun n hn c hc => ⟨(hfine n hn c hc).row, (hfine n hn c hc).lastRow⟩
  case spaced =>
    -- the siblings of a node are spaced because the row is laid out over the node's own extent
    refine List.all_eq_true.mpr fun n hn => ?_
    rcases hlaid n hn with hnil | hlaid
    · rw [hnil]
      rfl
    · exact hlaid.spaced
  case shows =>
    refine fun n hn => List.Pairwise.isChain (List.pairwise_of_forall_mem_list fun a ha b _ _ => ?_)
    exact (hfine n hn a ha).shows

/-! ### Rules -/

/-- **What a rule yields is placed**, if what the terminals yield that it may speak of is. -/
theorem Table.Yields.placed {τ ρ μ σ : Type} {g : Table τ ρ μ σ} {ad : Admitted τ ρ μ} {inv : σ → Prop}
    (htable : ∀ p, ad.Covers (g.rule p)) (hkinds : ∀ kind a, ad.construct kind a → kind ≠ markKind)
    (hleaf : ∀ {m t s xs s'}, g.lexis.read m t s = .ok (xs, s') → ad.terminal t → inv s →
      Placed code (g.lexis.offset s) xs (g.lexis.offset s') ∧ inv s')
    {m : μ} {a : Rule τ ρ μ} {s s' : σ} {xs : List Node} (h : g.Yields m a s xs s')
    (ha : ad.Covers a) (hs : inv s) :
    Placed code (g.lexis.offset s) xs (g.lexis.offset s') ∧ inv s' := by
  -- by the way in which the rule was read; the invariant goes from one terminal to the next
  induction h with
  | term h => exact hleaf h (ha.terminals _ List.mem_cons_self) hs
  | call _ ih => exact ih (htable _) hs
  | empty => exact ⟨.nil (.refl _ _), hs⟩
  | seq _ _ ih ih' =>
    obtain ⟨hfirst, hs'⟩ := ih ⟨fun t ht => ha.terminals t (List.mem_append_left _ ht),
      fun c hc => ha.constructs c (List.mem_append_left _ hc)⟩ hs
    obtain ⟨hsecond, hs''⟩ := ih' ⟨fun t ht => ha.terminals t (List.mem_append_right _ ht),
      fun c hc => ha.constructs c (List.mem_append_right _ hc)⟩ hs'
    exact ⟨hfirst.append hsecond, hs''⟩
  | left _ ih =>
    exact ih ⟨fun t ht => ha.terminals t (List.mem_append_left _ ht),
      fun c hc => ha.constructs c (List.mem_append_left _ hc)⟩ hs
  | right _ ih =>
    exact ih ⟨fun t ht => ha.terminals t (List.mem_append_right _ ht),
      fun c hc => ha.constructs c (List.mem_append_right _ hc)⟩ hs
  | stop => exact ⟨.nil (.refl _ _), hs⟩
  | more _ _ ih ih' =>
    obtain ⟨hfirst, hs'⟩ := ih ⟨ha.terminals, ha.constructs⟩ hs
    obtain ⟨hrest, hs''⟩ := ih' ha hs'
    exact ⟨hfirst.append hrest, hs''⟩
  | ahead => exact ⟨.nil (.refl _ _), hs⟩
  | avoid => exact ⟨.nil (.refl _ _), hs⟩
  | node _ ih =>
    obtain ⟨hinner, hs'⟩ :=
      ih ⟨ha.terminals, fun c hc => ha.constructs c (List.mem_cons_of_mem _ hc)⟩ hs
    exact ⟨hinner.wrap (hkinds _ _ (ha.constructs _ List.mem_cons_self)), hs'⟩
  | @group _ kind _ _ xs _ _ ih =>
    obtain ⟨hinner, hs'⟩ :=
      ih ⟨ha.terminals, fun c hc => ha.constructs c (List.mem_cons_of_mem _ hc)⟩ hs
    rcases gather_cases kind xs with hgather | hgather
    · rw [hgather]; exact ⟨hinner, hs'⟩
    · rw [hgather]; exact ⟨hinner.wrap (hkinds _ _ (ha.constructs _ List.mem_cons_self)), hs'⟩
  | role _ ih =>
    obtain ⟨hinner, hs'⟩ := ih ⟨ha.terminals, ha.constructs⟩ hs
    exact ⟨hinner.assign _, hs'⟩
  | within _ ih => exact ih ⟨ha.terminals, ha.constructs⟩ hs

end Docsmith.Grammar
