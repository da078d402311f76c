import Docsmith.Proofs.Source.Parting
import Docsmith.Proofs.Tree.Siblings
import Mathlib.Data.List.Chain

namespace Docsmith

/-!
# The comments that belong to a node

The comments directly above a node are the longest run of siblings before it that is attached to it: comments that
begin their lines, each of them right above what follows it.  The slot above the node takes the rows of the run.

* `AttachedRun`: a run of comments is attached to a node; `attachedRun_concat` takes it apart at its last comment.
* `leadingFrom_suffix`, `attachedRun_leadingFrom`, `suffix_leadingFrom`: the comments above a node are the siblings
  right before it, they are attached to it, and no longer run is.
* `Bytes.lt_lineStart_iff`, `Bytes.lineEnd_eq_lineStart`: where a line begins, by the rows of a source.
* `Bytes.startsLine_iff`: which offsets begin their lines.
* `Rowed`, `lineSlot_rows`: where rows count line feeds, the slot above a node takes whole lines.
* `leadingComments_are_longest_run`: the comments above a node, and the slot that takes their lines.
-/

variable {code : Bytes} {n c : Node} {run siblings xs before : List Node}

/-- A run of comments is attached to a node: each of them begins its line and ends on the row right above what
    follows it, the last of them above the node. -/
structure AttachedRun (code : Bytes) (n : Node) (run : List Node) : Prop where
  comments : ∀ c ∈ run, c.isComment = true ∧ code.startsLine c.start = true
  adjoining : (run ++ [n]).IsChain fun a b => a.lastRow + 1 = b.row

theorem attachedRun_nil (code : Bytes) (n : Node) : AttachedRun code n [] :=
  ⟨List.forall_mem_nil _, .singleton n⟩

/-- A run is attached to a node if its last comment is, and the others are attached to that comment. -/
theorem attachedRun_concat : AttachedRun code n (run ++ [c]) ↔
    (c.isComment = true ∧ c.lastRow + 1 = n.row ∧ code.startsLine c.start = true) ∧ AttachedRun code c run := by
  constructor
  · intro h
    obtain ⟨hrun, hlast⟩ := List.forall_mem_append.mp h.comments
    obtain ⟨hcomment, hstarts⟩ := hlast c (List.mem_singleton_self c)
    -- the last comment of the run is what the node adjoins, and the one before it adjoins the last
    obtain ⟨hchain, -, hnext⟩ := List.isChain_append.mp h.adjoining
    exact ⟨⟨hcomment, hnext c List.getLast?_concat n rfl, hstarts⟩, hrun, hchain⟩
  · rintro ⟨⟨hcomment, hnext, hstarts⟩, h⟩
    refine ⟨List.forall_mem_append.mpr ⟨h.comments, ?_⟩, List.isChain_append.mpr ⟨h.adjoining, .singleton n, ?_⟩⟩
    · intro d hd
      rw [List.mem_singleton.mp hd]
      exact ⟨hcomment, hstarts⟩
    · intro d hd m hm
      rw [List.getLast?_concat] at hd
      cases hd
      cases hm
      exact hnext

/-- The comments of an attached run begin above the node. -/
theorem AttachedRun.row_lt (h : AttachedRun code n run) (hrows : ∀ c ∈ run, c.row ≤ c.lastRow) :
    ∀ c ∈ run, c.row < n.row := by
  induction run using List.reverseRecOn generalizing n with
  | nil => exact List.forall_mem_nil _
  | append_singleton run c ih =>
    obtain ⟨⟨-, hnext, -⟩, hrun⟩ := attachedRun_concat.mp h
    obtain ⟨hrows, hlast⟩ := List.forall_mem_append.mp hrows
    have hrow := hlast c (List.mem_singleton_self c)
    refine List.forall_mem_append.mpr ⟨fun d hd => ?_, fun d hd => ?_⟩
    · have hearlier := ih hrun hrows d hd
      omega
    · rw [List.mem_singleton.mp hd]
      omega

/-! ### The comments above a node -/

/-- What is asked of a sibling for the run to go on with it. -/
theorem leadingFrom_cons (code : Bytes) (row : Nat) (c : Node) (siblings : List Node) :
    leadingFrom code row (c :: siblings) =
      if c.isComment = true ∧ c.lastRow + 1 = row ∧ code.startsLine c.start = true then
        leadingFrom code c.row siblings ++ [c]
      else [] := by
  rw [leadingFrom]
  simp only [Bool.and_eq_true, beq_iff_eq, and_assoc]

/-- The comments above a node are the siblings right before it. -/
theorem leadingFrom_suffix (code : Bytes) (row : Nat) (siblings : List Node) :
    leadingFrom code row siblings <:+ siblings.reverse := by
  induction siblings generalizing row with
  | nil => exact List.suffix_rfl
  | cons c siblings ih =>
    rw [leadingFrom_cons, List.reverse_cons]
    split
    · exact List.suffix_concat_iff.mpr (.inr ⟨_, rfl, ih c.row⟩)
    · exact List.nil_suffix

/-- The comments above a node are attached to it. -/
theorem attachedRun_leadingFrom (code : Bytes) (n : Node) (siblings : List Node) :
    AttachedRun code n (leadingFrom code n.row siblings) := by
  induction siblings generalizing n with
  | nil => exact attachedRun_nil code n
  | cons c siblings ih =>
    rw [leadingFrom_cons]
    split
    · rename_i hc
      exact attachedRun_concat.mpr ⟨hc, ih c⟩
    · exact attachedRun_nil code n

/-- **No longer run is attached to a node** than that of the comments above it. -/
theorem suffix_leadingFrom (hrun : run <:+ siblings.reverse) (h : AttachedRun code n run) :
    run <:+ leadingFrom code n.row siblings := by
  induction siblings generalizing n run with
  | nil => exact hrun
  | cons c siblings ih =>
    rw [List.reverse_cons] at hrun
    rcases List.suffix_concat_iff.mp hrun with rfl | ⟨others, rfl, hothers⟩
    · exact List.nil_suffix
    · -- the run ends with the sibling right before the node, and the others are attached to that one
      obtain ⟨hc, hattached⟩ := attachedRun_concat.mp h
      rw [leadingFrom_cons, if_pos hc]
      exact List.suffix_concat_iff.mpr (.inr ⟨others, rfl, ih hothers hattached⟩)

/-! ### Lines by their rows -/

namespace Bytes

variable {a b i : Nat}

/-- What lies before a line is what is on earlier rows. -/
theorem lt_lineStart_iff : i < code.lineStart b ↔ code.rowAt i < code.rowAt b := by
  refine ⟨rowAt_lt_of_lineStart, fun hrow => ?_⟩
  by_contra hle
  have hmono := rowAt_mono code (a := code.lineStart b) (b := i) (by omega)
  have hstart := rowAt_of_lineStart (Nat.le_refl (code.lineStart b)) (lineStart_le code b)
  omega

/-- **An offset begins its line** if there is only white space up to it from a line feed or the beginning. -/
theorem startsLine_iff : code.startsLine b = true ↔ ∃ a ≤ b, (a = 0 ∨ code[a - 1]? = some newline) ∧
    ∀ i, a ≤ i → i < b → code.inkAt i = false := by
  rw [startsLine, beforeOnLine, blank_slice_iff]
  constructor
  · intro hblank
    refine ⟨code.lineStart b, lineStart_le code b, ?_, hblank⟩
    rcases Nat.eq_zero_or_pos (code.lineStart b) with hzero | hpos
    · exact .inl hzero
    · exact .inr (feed_of_lineStart hpos)
  · rintro ⟨a, hab, hfeed, hblank⟩ i hi hib
    refine hblank i ?_ hib
    rcases hfeed with rfl | hfeed
    · exact Nat.zero_le i
    · rcases Nat.eq_zero_or_pos a with rfl | hpos
      · exact Nat.zero_le i
      · -- the line feed is on an earlier row
        have hmem : newline ∈ (code.take b).drop (a - 1) := mem_between hfeed (Nat.le_refl _) (by omega)
        have hne := mt (rowAt_eq_iff code (show a - 1 ≤ b by omega)).mp (not_not_intro hmem)
        have hmono := rowAt_mono code (show a - 1 ≤ b by omega)
        have := lt_lineStart_iff.mpr (show code.rowAt (a - 1) < code.rowAt b by omega)
        omega

/-- Behind a line feed a line begins. -/
theorem startsLine_of_feed (h : code[b]? = some newline) : code.startsLine (b + 1 : Nat) = true :=
  startsLine_iff.mpr ⟨b + 1, Nat.le_refl _, .inr h, fun i hi hib => by omega⟩

/-- White space at the head of a line goes on. -/
theorem startsLine_of_blank (h : code.startsLine a = true) (hab : a ≤ b)
    (hblank : ∀ i, a ≤ i → i < b → code.inkAt i = false) : code.startsLine b = true := by
  obtain ⟨c, hca, hfeed, hbefore⟩ := startsLine_iff.mp h
  refine startsLine_iff.mpr ⟨c, Nat.le_trans hca hab, hfeed, fun i hi hib => ?_⟩
  rcases Nat.lt_or_ge i a with hlt | hge
  · exact hbefore i hi hlt
  · exact hblank i hge hib

/-- There are no more rows than at the end of a source. -/
theorem rowAt_le_rowAt_length (code : Bytes) (a : Nat) : code.rowAt a ≤ code.rowAt code.length := by
  unfold rowAt
  rw [List.take_length]
  exact (List.take_sublist a code).count_le newline

/-- **A line ends where the next one begins.** -/
theorem lineEnd_eq_lineStart (h : code.rowAt a + 1 = code.rowAt b) : code.lineEnd a = code.lineStart b := by
  have hstart := rowAt_of_lineStart (Nat.le_refl (code.lineStart b)) (lineStart_le code b)
  refine Nat.le_antisymm (lineEnd_le_of_row (by omega)) ?_
  by_contra hlt
  have hrow := lt_lineStart_iff.mp (Nat.lt_of_not_le hlt)
  have hlast := rowAt_le_rowAt_length code b
  have ha : a ≤ code.length := by
    by_contra hle
    have hmono := rowAt_mono code (a := code.length) (b := a) (by omega)
    omega
  rcases feed_of_lineEnd ha with hall | ⟨hpos, hfeed⟩
  · rw [hall] at hrow
    omega
  · -- the line feed at the end of the line counts
    have hmem : newline ∈ (code.take (code.lineEnd a)).drop a := mem_between hfeed (by omega) (by omega)
    have hne := mt (rowAt_eq_iff code (Nat.le_of_lt hpos)).mp (not_not_intro hmem)
    have hmono := rowAt_mono code (Nat.le_of_lt hpos)
    omega

end Bytes

/-! ### The slot above a node -/

/-- The rows of siblings, which begin no later than they end, count the line feeds before them. -/
def Rowed (code : Bytes) (xs : List Node) : Prop :=
  ∀ x ∈ xs, x.start ≤ x.stop ∧ x.row = code.rowAt x.start ∧ x.lastRow = code.rowAt x.stop

instance (code : Bytes) (xs : List Node) : Decidable (Rowed code xs) :=
  inferInstanceAs (Decidable (∀ x ∈ xs, _))

theorem Rowed.row_le (h : Rowed code xs) {x : Node} (hx : x ∈ xs) : x.row ≤ x.lastRow := by
  obtain ⟨hle, hrow, hlast⟩ := h x hx
  rw [hrow, hlast]
  exact Bytes.rowAt_mono code hle

/-- The comments above a node are among the siblings. -/
theorem leadingComments_subset (hmem : (before, n) ∈ withBefore [] xs) : leadingComments code before n ⊆ xs := by
  obtain ⟨rest, rfl⟩ := mem_withBefore hmem
  intro c hc
  have hsibling := (leadingFrom_suffix code n.row (before.filter Node.named)).subset hc
  exact List.mem_append_left _ (List.mem_reverse.mpr (List.mem_filter.mp (List.mem_reverse.mp hsibling)).1)

/-- **The slot above a node takes whole lines**: the rows from that of the first comment above the node to the row
    above the node. -/
theorem lineSlot_rows (hmem : (before, n) ∈ withBefore [] xs) (hrows : Rowed code xs) {first : Node}
    (hfirst : first ∈ (leadingComments code before n).head?) :
    (lineSlot code before n).start = code.lineStart first.start ∧
    (lineSlot code before n).stop = code.lineStart n.start ∧
    ∀ i, (lineSlot code before n).start ≤ i ∧ i < (lineSlot code before n).stop ↔
      first.row ≤ code.rowAt i ∧ code.rowAt i < n.row := by
  have hsub : leadingComments code before n ⊆ xs := leadingComments_subset hmem
  have hrun : AttachedRun code n (leadingComments code before n) := attachedRun_leadingFrom code n _
  obtain ⟨-, hrow, -⟩ := hrows n (mem_of_withBefore hmem)
  obtain ⟨-, hfirst_row, -⟩ := hrows first (hsub (List.mem_of_mem_head? hfirst))
  have hslot : (lineSlot code before n).start = code.lineStart first.start ∧
      (lineSlot code before n).stop = code.lineStart n.start := by
    rcases List.eq_nil_or_concat' (leadingComments code before n) with hnil | ⟨others, last, hconcat⟩
    · rw [hnil] at hfirst
      cases hfirst
    · -- the last comment ends on the row above the node
      obtain ⟨⟨-, hnext, -⟩, -⟩ := attachedRun_concat.mp (hconcat ▸ hrun)
      obtain ⟨-, -, hlast⟩ := hrows last (hsub (by rw [hconcat]; exact List.mem_concat_self))
      have hend : code.lineEnd last.stop = code.lineStart n.start := Bytes.lineEnd_eq_lineStart (by omega)
      have hlast_eq : (leadingComments code before n).getLastD first = last := by
        rw [hconcat, List.getLastD_concat]
      unfold lineSlot
      cases hcomments : leadingComments code before n with
      | nil => rw [hcomments] at hfirst; cases hfirst
      | cons c rest =>
        rw [hcomments] at hfirst hlast_eq
        cases hfirst
        exact ⟨rfl, by rw [← hend, ← hlast_eq]⟩
  refine ⟨hslot.1, hslot.2, fun i => ?_⟩
  rw [hslot.1, hslot.2, ← Nat.not_lt, Bytes.lt_lineStart_iff, Bytes.lt_lineStart_iff, hfirst_row, hrow, Nat.not_lt]

/-- **The comments that belong to a node.**  Of the named siblings before a node, the comments above it are those of
    the longest run right before it that is attached to it, in source order.  Where rows count line feeds and there
    are such comments, the slot above the node takes whole lines, one or more: from the start of the line of the
    first comment to the start of the line of the node. -/
theorem leadingComments_are_longest_run (hmem : (before, n) ∈ withBefore [] xs) :
    (∃ later, xs = before.reverse ++ n :: later) ∧
    leadingComments code before n <:+ before.reverse.filter Node.named ∧
    AttachedRun code n (leadingComments code before n) ∧
    (∀ run, run <:+ before.reverse.filter Node.named → AttachedRun code n run →
      run <:+ leadingComments code before n) ∧
    (Rowed code xs → ∀ first ∈ (leadingComments code before n).head?,
      (lineSlot code before n).start = code.lineStart first.start ∧
      (lineSlot code before n).stop = code.lineStart n.start ∧
      first.row < n.row ∧
      ∀ i, (lineSlot code before n).start ≤ i ∧ i < (lineSlot code before n).stop ↔
        first.row ≤ code.rowAt i ∧ code.rowAt i < n.row) := by
  have hnamed : before.reverse.filter Node.named = (before.filter Node.named).reverse := List.filter_reverse
  -- the run is found going up, so that it is the reverse of the siblings that a suffix is taken of
  have hattached : AttachedRun code n (leadingComments code before n) := attachedRun_leadingFrom code n _
  rw [hnamed]
  refine ⟨mem_withBefore hmem, leadingFrom_suffix code n.row _, hattached, fun run hrun h => ?_, fun hrows => ?_⟩
  · exact suffix_leadingFrom hrun h
  · intro first hfirst
    obtain ⟨hstart, hstop, hlines⟩ := lineSlot_rows hmem hrows hfirst
    have hsub : leadingComments code before n ⊆ xs := leadingComments_subset hmem
    refine ⟨hstart, hstop, ?_, hlines⟩
    exact hattached.row_lt (fun c hc => hrows.row_le (hsub hc)) first (List.mem_of_mem_head? hfirst)

/-- A comment behind code on its line, one on a line of its own and one on two lines: the last two belong to the
    node, and the slot takes their three lines. -/
theorem leadingComments_are_longest_run_of_two :
    let code := Text.encode "x := 1 // a\n// b\n/* c\n   d */\nfunc f()\n"
    let node (kind : String) (start stop row lastRow : Nat) : Node :=
      .mk { kind := kind, extent := ⟨start, stop, row, lastRow⟩ } []
    let x := node "statement" 0 6 0 0
    let a := node "comment" 7 11 0 0
    let b := node "comment" 12 16 1 1
    let c := node "comment" 17 29 2 3
    let f := node "function" 30 38 4 4
    ([c, b, a, x], f) ∈ withBefore [] [x, a, b, c, f] ∧ Rowed code [x, a, b, c, f] ∧
      leadingComments code [c, b, a, x] f = [b, c] ∧ (lineSlot code [c, b, a, x] f).start = 12 ∧
      (lineSlot code [c, b, a, x] f).stop = 30 := by
  intro code node x a b c f
  have hmem : ([c, b, a, x], f) ∈ withBefore [] [x, a, b, c, f] := by simp [withBefore]
  have hrows : Rowed code [x, a, b, c, f] := by decide +kernel
  have hrun : leadingComments code [c, b, a, x] f = [b, c] := by rfl
  obtain ⟨hstart, hstop, -, -⟩ :=
    (leadingComments_are_longest_run hmem).2.2.2.2 hrows b (by rw [hrun]; rfl)
  exact ⟨hmem, hrows, hrun, hstart.trans (by decide +kernel), hstop.trans (by decide +kernel)⟩

end Docsmith
