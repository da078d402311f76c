import Docsmith.Proofs.Doc.Slot
import Docsmith.Proofs.Source.Rows
import Mathlib.Data.List.Chain

namespace Docsmith

/-!
# Where the slots for line comments are

The slot of a node among its siblings ends where the node begins or earlier.  It begins behind the
siblings before the node, those comments apart that the slot holds.

* `DocSlot.Before`: a slot comes before another one.
* `Aligned`: siblings in order, whose rows count line feeds, and which show where they end.
* `SourceTree.Regular`: a tree all of whose siblings are.
* `Aligned.le_lineStart`: a sibling does not reach into the line that a later one begins.
* `leadingFrom_spec`, `leadingComments_spec`: the comments directly above a node.
* `lineSlot_spec`, `inlineSlot_spec`: the two sorts of slots.
-/

/-- The slot begins before another one, and ends there or earlier. -/
structure DocSlot.Before (s s' : DocSlot) : Prop where
  start_lt : s.start < s'.start
  stop_le : s.stop ≤ s'.start

/-- Siblings that lie in the source one after another, none of them empty.  Their rows count line feeds,
    and one that ends on the row where the next begins shows there. -/
structure Aligned (code : Bytes) (xs : List Node) : Prop where
  ordered : xs.Pairwise fun a b => a.stop ≤ b.start
  solid : ∀ x ∈ xs, x.start < x.stop
  bounded : ∀ x ∈ xs, x.stop ≤ code.length
  rows : ∀ x ∈ xs, x.row = code.rowAt x.start ∧ x.lastRow = code.rowAt x.stop
  shows : xs.IsChain fun a b => a.lastRow = b.row → code.Shows a.start a.stop

variable {code : Bytes} {xs before : List Node} {n x prev : Node}

/-- Of two siblings, the one that ends before the other begins comes before it. -/
theorem Aligned.split (h : Aligned code xs) (hprev : prev ∈ xs) (hx : x ∈ xs)
    (hle : prev.stop ≤ x.start) : ∃ l r, xs = l ++ x :: r ∧ prev ∈ l := by
  obtain ⟨l, r, rfl⟩ := List.append_of_mem hx
  refine ⟨l, r, rfl, ?_⟩
  have hprev_solid := h.solid prev hprev
  have hx_solid := h.solid x hx
  rcases List.mem_append.mp hprev with hl | hr
  · exact hl
  · rcases List.mem_cons.mp hr with rfl | hr
    · omega
    · have hlater := List.rel_of_pairwise_cons (List.pairwise_append.mp h.ordered).2.1 hr
      omega

/-- **A sibling does not reach into the line that a later one begins.** -/
theorem Aligned.le_lineStart (h : Aligned code xs) (hprev : prev ∈ xs) (hx : x ∈ xs)
    (hle : prev.stop ≤ x.start) (hstarts : code.startsLine x.start = true) :
    prev.stop ≤ code.lineStart x.start := by
  obtain ⟨l, r, rfl, hl⟩ := h.split hprev hx hle
  -- the sibling right before shows where it ends, and the others end before it
  rcases List.eq_nil_or_concat' l with rfl | ⟨l, last, rfl⟩
  · cases hl
  rw [List.append_assoc, List.singleton_append] at h
  have hlast_mem : last ∈ l ++ last :: x :: r := by simp
  have hx_mem : x ∈ l ++ last :: x :: r := by simp
  have hshows := (List.isChain_append_cons_cons.mp h.shows).2.1
  have hpair := (List.pairwise_append.mp h.ordered).2.1
  have hlast_le : last.stop ≤ x.start := List.rel_of_pairwise_cons hpair List.mem_cons_self
  have hprev_le : prev.stop ≤ last.stop := by
    rcases List.mem_append.mp hl with hl | hl
    · have hbefore := (List.pairwise_append.mp h.ordered).2.2 prev hl last List.mem_cons_self
      have hsolid := h.solid last hlast_mem
      omega
    · rw [List.mem_singleton.mp hl]
  refine Nat.le_trans hprev_le (Bytes.le_lineStart hstarts hlast_le fun hrow => hshows ?_)
  rw [(h.rows last hlast_mem).2, (h.rows x hx_mem).1, hrow]

/-- The tree as a parser gives it: it lies in the source, parents cover their children, and siblings lie
    one after another with only white space between them.  No node but the root is empty, rows count line
    feeds, and a node that ends on the row where its next sibling begins shows there. -/
structure SourceTree.Regular (t : SourceTree) : Prop where
  bounded : t.root.stop ≤ t.code.length
  inside : ∀ n ∈ t.root.preorder, ∀ c ∈ n.children, n.start ≤ c.start ∧ c.stop ≤ n.stop
  spaced : t.spaced = true
  solid : ∀ n ∈ t.root.preorder, ∀ c ∈ n.children, c.start < c.stop
  rows : ∀ n ∈ t.root.preorder, ∀ c ∈ n.children,
    c.row = t.code.rowAt c.start ∧ c.lastRow = t.code.rowAt c.stop
  shows : ∀ n ∈ t.root.preorder, n.children.IsChain fun a b =>
    a.lastRow = b.row → t.code.Shows a.start a.stop

/-- A node of a tree ends with the root or earlier, if parents cover their children. -/
theorem stop_le_of_inside {root n : Node}
    (h : ∀ n ∈ root.preorder, ∀ c ∈ n.children, n.start ≤ c.start ∧ c.stop ≤ n.stop)
    (hn : n ∈ root.preorder) : n.stop ≤ root.stop := by
  induction root using Node.induction with
  | _ root ih =>
    rcases mem_preorder.mp hn with rfl | ⟨c, hc, hnc⟩
    · exact Nat.le_refl _
    · have hpart : ∀ m ∈ c.preorder, m ∈ root.preorder := fun m hm => mem_preorder.mpr (.inr ⟨c, hc, hm⟩)
      have hle := ih c hc (fun m hm => h m (hpart m hm)) hnc
      have hroot := h root (mem_preorder.mpr (.inl rfl)) c hc
      omega

/-- The children of a node of a regular tree are aligned. -/
theorem SourceTree.Regular.aligned {t : SourceTree} (h : t.Regular) (hn : n ∈ t.root.preorder) :
    Aligned t.code n.children where
  ordered := pairwise_of_spaced (SourceTree.spaced_children h.spaced hn)
  solid := h.solid n hn
  bounded _ hc := Nat.le_trans (stop_le_of_inside h.inside (preorder_child hn hc)) h.bounded
  rows := h.rows n hn
  shows := h.shows n hn

/-! ### A node among its siblings -/

/-- The siblings before a node. -/
theorem mem_before (hmem : (before, n) ∈ withBefore [] xs) (hx : x ∈ before) : x ∈ xs := by
  obtain ⟨rest, rfl⟩ := mem_withBefore hmem
  exact List.mem_append_left _ (List.mem_reverse.mpr hx)

/-- The siblings before a node end before it begins, and those that are nearer to it begin later. -/
theorem Aligned.earlier (h : Aligned code xs) (hmem : (before, n) ∈ withBefore [] xs) :
    (∀ x ∈ before, x.stop ≤ n.start) ∧ before.Pairwise fun a b => b.stop ≤ a.start := by
  obtain ⟨rest, rfl⟩ := mem_withBefore hmem
  obtain ⟨hbefore, -, hacross⟩ := List.pairwise_append.mp h.ordered
  refine ⟨fun x hx => ?_, List.pairwise_reverse.mp hbefore⟩
  exact hacross x (List.mem_reverse.mpr hx) n List.mem_cons_self

/-! ### Comments above a node -/

/-- The run of comments that ends on the row above another: the nearest siblings, in source order, all
    comments that begin their lines. -/
theorem leadingFrom_spec (code : Bytes) (row : Nat) (siblings : List Node) :
    ∃ run rest, siblings = run ++ rest ∧ leadingFrom code row siblings = run.reverse ∧
      (∀ c ∈ run, c.isComment = true ∧ code.startsLine c.start = true) ∧
      ∀ c ∈ run.head?, c.lastRow + 1 = row := by
  -- induction on the siblings before the node, nearest first: the row moves up with every comment taken
  induction siblings generalizing row with
  | nil => exact ⟨[], [], rfl, rfl, by simp⟩
  | cons c rest ih =>
    rw [leadingFrom]
    split
    · rename_i htest
      simp only [Bool.and_eq_true, beq_iff_eq] at htest
      -- the tail's own claim about its head is dropped: the head of the whole run is `c`
      obtain ⟨run, others, hsplit, hfrom, hrun, -⟩ := ih c.row
      refine ⟨c :: run, others, by rw [hsplit]; rfl, by rw [hfrom, List.reverse_cons], ?_, ?_⟩
      · intro d hd
        rcases List.mem_cons.mp hd with rfl | hd
        · exact ⟨htest.1.1, htest.2⟩
        · exact hrun d hd
      · intro d hd
        cases hd
        exact htest.1.2
    · exact ⟨[], c :: rest, rfl, rfl, by simp⟩

/-- A run of comments ends at the first sibling that is no comment. -/
theorem leadingFrom_append {code : Bytes} {row : Nat} {xs ys : List Node}
    (h : ∀ n ∈ ys.head?, n.isComment = false) : leadingFrom code row (xs ++ ys) = leadingFrom code row xs := by
  induction xs generalizing row with
  | nil =>
    cases ys with
    | nil => rfl
    | cons n rest => simp [leadingFrom, h n rfl]
  | cons c rest ih => rw [List.cons_append, leadingFrom, leadingFrom, ih]

/-- The comments directly above a node are siblings that begin their lines, the last of them on the row
    above it; all that come before one of them in the run begin earlier, and so does every sibling that is
    no comment. -/
theorem leadingComments_spec (h : Aligned code xs) (hmem : (before, n) ∈ withBefore [] xs) :
    (∀ c ∈ leadingComments code before n, c ∈ before ∧ code.startsLine c.start = true) ∧
    (leadingComments code before n).Pairwise (fun a b => a.stop ≤ b.start) ∧
    (∀ c ∈ (leadingComments code before n).getLast?, c.lastRow + 1 = n.row) ∧
    ∀ x ∈ before, x.named = true → x.isComment = false →
      ∀ c ∈ leadingComments code before n, x.stop ≤ c.start := by
  -- the run is a front part of the siblings read backwards, and everything below follows from its place there
  obtain ⟨run, rest, hsplit, hrun, hcomments, hlast⟩ :=
    leadingFrom_spec code n.row (before.filter Node.named)
  have hpair : (run ++ rest).Pairwise fun a b => b.stop ≤ a.start := by
    rw [← hsplit]
    exact (h.earlier hmem).2.sublist List.filter_sublist
  rw [leadingComments, hrun]
  refine ⟨fun c hc => ?_, ?_, fun c hc => ?_, fun x hx hnamed hcomment c hc => ?_⟩
  · have hc' : c ∈ before.filter Node.named := by
      rw [hsplit]
      exact List.mem_append_left _ (List.mem_reverse.mp hc)
    exact ⟨(List.mem_filter.mp hc').1, (hcomments c (List.mem_reverse.mp hc)).2⟩
  · exact List.pairwise_reverse.mpr (List.pairwise_append.mp hpair).1
  · rw [List.getLast?_reverse] at hc
    exact hlast c hc
  · have hc' : c ∈ run := List.mem_reverse.mp hc
    -- a named sibling is in the run or behind it; in the run it would be a comment
    have hx' : x ∈ run ++ rest := by
      rw [← hsplit]
      exact List.mem_filter.mpr ⟨hx, hnamed⟩
    rcases List.mem_append.mp hx' with hx' | hx'
    · rw [(hcomments x hx').1] at hcomment
      cases hcomment
    · exact (List.pairwise_append.mp hpair).2.2 c hc' x hx'

/-- Nodes in order that are not empty end behind the beginning of the first. -/
theorem start_lt_last {first : Node} {others : List Node}
    (hpair : (first :: others).Pairwise fun a b => a.stop ≤ b.start)
    (hsolid : ∀ c ∈ first :: others, c.start < c.stop) :
    first.start < ((first :: others).getLastD first).stop := by
  have hlast : (first :: others).getLastD first ∈ first :: others := by
    rw [List.getLastD_cons]
    exact List.getLastD_mem_cons
  have hfirst := hsolid first List.mem_cons_self
  have hsize := hsolid _ hlast
  rcases List.mem_cons.mp hlast with heq | hothers
  · rw [heq]
    exact hfirst
  · have hafter := List.rel_of_pairwise_cons hpair hothers
    omega

/-! ### The slots -/

/-- **The slot above a node** ends where the node begins or earlier, and begins behind the siblings that
    come before all comments in it. -/
theorem lineSlot_spec (h : Aligned code xs) (hmem : (before, n) ∈ withBefore [] xs)
    (hstarts : code.startsLine n.start = true) :
    (lineSlot code before n).start ≤ (lineSlot code before n).stop ∧
    (lineSlot code before n).stop ≤ n.start ∧
    ∀ x ∈ before, (∀ c ∈ leadingComments code before n, x.stop ≤ c.start) →
      x.stop ≤ (lineSlot code before n).start := by
  have hn : n ∈ xs := mem_of_withBefore hmem
  obtain ⟨hrun, hpair, hlast, -⟩ := leadingComments_spec h hmem
  unfold lineSlot
  cases hcomments : leadingComments code before n with
  | nil =>
    refine ⟨Nat.le_refl _, Bytes.lineStart_le code n.start, fun x hx _ => ?_⟩
    exact h.le_lineStart (mem_before hmem hx) hn ((h.earlier hmem).1 x hx) hstarts
  | cons first others =>
    rw [hcomments] at hrun hpair hlast
    dsimp only
    -- the slot goes from the line of the first comment to the end of that of the last
    have hfirst_lt := start_lt_last hpair fun c hc => h.solid c (mem_before hmem (hrun c hc).1)
    have hgetLast : (first :: others).getLast? = some ((first :: others).getLastD first) := by
      rw [List.getLastD_eq_getLast?, List.getLast?_cons, Option.getD_some]
    generalize (first :: others).getLastD first = last at hgetLast hfirst_lt ⊢
    have hlast_mem : last ∈ first :: others := List.mem_of_getLast? hgetLast
    have hfirst : first ∈ xs := mem_before hmem (hrun first List.mem_cons_self).1
    have hlast' : last ∈ xs := mem_before hmem (hrun last hlast_mem).1
    refine ⟨?_, ?_, fun x hx hle => ?_⟩
    · have hstart := Bytes.lineStart_le code first.start
      have hstop := Bytes.le_lineEnd (h.bounded last hlast')
      omega
    · have hrow := hlast last hgetLast
      rw [(h.rows last hlast').2, (h.rows n hn).1] at hrow
      exact Bytes.lineEnd_le_of_row (by omega)
    · exact h.le_lineStart (mem_before hmem hx) hfirst (hle first List.mem_cons_self)
        (hrun first List.mem_cons_self).2

/-- **The slot between a node and the sibling before it** is the stretch between them. -/
theorem inlineSlot_spec (h : Aligned code xs) (hmem : (before, n) ∈ withBefore [] xs)
    (indent : String) :
    (inlineSlot code before n indent).start ≤ (inlineSlot code before n indent).stop ∧
    (inlineSlot code before n indent).stop = n.start ∧
    ∀ x ∈ before, x.stop ≤ (inlineSlot code before n indent).start := by
  obtain ⟨hle, hpair⟩ := h.earlier hmem
  refine ⟨?_, rfl, fun x hx => ?_⟩
  -- the slot begins behind the sibling just before, and all others end before that one begins
  · cases before with
    | nil => exact Nat.le_refl _
    | cons prev others => exact hle prev List.mem_cons_self
  · cases before with
    | nil => cases hx
    | cons prev others =>
      show x.stop ≤ prev.stop
      rcases List.mem_cons.mp hx with rfl | hx
      · exact Nat.le_refl _
      · have hfarther := List.rel_of_pairwise_cons hpair hx
        have hsolid := h.solid prev (mem_before hmem List.mem_cons_self)
        omega

end Docsmith
