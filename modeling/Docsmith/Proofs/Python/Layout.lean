import Docsmith.Proofs.Python.Tokens

namespace Docsmith.Python

open Grammar

/-!
# What a construct begins with

Where a construct begins is decided by its grammar: at the first token that it needs, after the comments
before this token.  A token on the line under way has no comments before it.

* `leads`: a check that what a rule yields begins with a node of certain sorts.
* `Opening`, `Neutral`, `Begins`: the beginning of what was read.
* `begins_of_yields`: the check does what it says.
-/

/-! ### What a rule begins with -/

/-- A check of what a rule yields.  If it must, it begins with a node of an admitted sort after its
    comments.  Else it may also yield nothing but the comments before the next token.  The first
    argument bounds the depth of the check. -/
def leads : Nat → Bool → (String → Bool → String → Bool) → Phrase → Bool
  | 0, _, _, _ => false
  | _ + 1, must, sort, .term t =>
    if t.form.isCode then
      !t.form.immediate && t.form.solid
        && t.form.sorts.all fun (kind, named) => isCodeKind kind && sort kind named ""
    else !must && (match t.form with | .begin => true | .sameLine => true | _ => false)
  | depth + 1, must, sort, .call p => leads depth must sort (rule p)
  | _ + 1, must, _, .empty => !must
  | depth + 1, must, sort, .seq a b =>
    leads depth true sort a || leads depth false sort a && leads depth must sort b
  | depth + 1, must, sort, .alt a b => leads depth must sort a && leads depth must sort b
  | depth + 1, must, sort, .many a => !must && leads depth false sort a
  | _ + 1, must, _, .ahead _ => !must
  | _ + 1, must, _, .avoid _ => !must
  | depth + 1, must, sort, .node kind a =>
    isCodeKind kind && sort kind true "" && leads depth must (fun _ _ _ => true) a
  | depth + 1, must, sort, .group kind a =>
    isCodeKind kind && sort kind true "" && leads depth must sort a
  | depth + 1, must, sort, .role name a =>
    leads depth must (fun kind named _ => sort kind named name) a
  | depth + 1, must, sort, .within _ a => leads depth must sort a

/-- What was read begins with comments and then a node of an admitted sort.  The node is where the
    next token was, and a node on the line under way has no comments before it. -/
structure Opening (sort : String → Bool → String → Bool) (s : State) (xs comments : List Node)
    (first : Node) : Prop where
  split : ∃ rest, xs = comments ++ first :: rest
  extras : ∀ n ∈ comments, isExtra n = true
  code : isExtra first = false ∧ isMark first = false
  sort_eq : sort first.kind first.named first.role = true
  live : Live s.place
  row_le : (extrasAt s.place).2.row ≤ first.row
  same_row : first.row = s.place.row → comments = []

/-- Nothing but the comments before the next token was read. -/
structure Neutral (s : State) (xs : List Node) (s' : State) : Prop where
  extras : ∀ n ∈ xs, isExtra n = true
  row_le : s.place.row ≤ s'.place.row
  next_row_le : (extrasAt s.place).2.row ≤ (extrasAt s'.place).2.row
  live : Live s'.place → Live s.place
  same_row : Live s'.place → s'.place.row = s.place.row → xs = []

/-- The first node of what was read, or that there is none. -/
def Begins (must : Bool) (sort : String → Bool → String → Bool) (s : State) (xs : List Node)
    (s' : State) : Prop :=
  (∃ comments first, Opening sort s xs comments first) ∨ must = false ∧ Neutral s xs s'

variable {sort : String → Bool → String → Bool} {s s' s'' : State} {xs ys comments : List Node}
  {first : Node} {must : Bool}

theorem Neutral.refl (s : State) : Neutral s [] s where
  extras := fun n hn => by cases hn
  row_le := Nat.le_refl _
  next_row_le := Nat.le_refl _
  live := id
  same_row := fun _ _ => rfl

theorem Neutral.trans (h : Neutral s xs s') (h' : Neutral s' ys s'') : Neutral s (xs ++ ys) s'' where
  extras := by
    intro n hn
    rcases List.mem_append.mp hn with hn | hn
    · exact h.extras n hn
    · exact h'.extras n hn
  row_le := Nat.le_trans h.row_le h'.row_le
  next_row_le := Nat.le_trans h.next_row_le h'.next_row_le
  live := fun hlive => h.live (h'.live hlive)
  same_row := by
    intro hlive hrow
    have hfirst := h.row_le
    have hsecond := h'.row_le
    rw [h.same_row (h'.live hlive) (by omega), h'.same_row hlive (by omega)]
    rfl

theorem Neutral.opening (h : Neutral s xs s') (h' : Opening sort s' ys comments first) :
    Opening sort s (xs ++ ys) (xs ++ comments) first where
  -- the parts before the opening are comments and tokens without role, so they join its comments
  split := by
    obtain ⟨rest, rfl⟩ := h'.split
    exact ⟨rest, by simp⟩
  extras := by
    intro n hn
    rcases List.mem_append.mp hn with hn | hn
    · exact h.extras n hn
    · exact h'.extras n hn
  code := h'.code
  sort_eq := h'.sort_eq
  live := h.live h'.live
  row_le := Nat.le_trans h.next_row_le h'.row_le
  same_row := by
    intro hrow
    have hfirst := h.row_le
    have hnext := (extrasAt_leads s'.place).row_le
    have hlast := h'.row_le
    rw [h.same_row h'.live (by omega), h'.same_row (by omega)]
    rfl

theorem Opening.append (h : Opening sort s xs comments first) (ys : List Node) :
    Opening sort s (xs ++ ys) comments first where
  split := by
    obtain ⟨rest, rfl⟩ := h.split
    exact ⟨rest ++ ys, by simp⟩
  extras := h.extras
  code := h.code
  sort_eq := h.sort_eq
  live := h.live
  row_le := h.row_le
  same_row := h.same_row

/-- The comments of what was read, and the nodes from the first on. -/
theorem Opening.comments_eq (h : Opening sort s xs comments first) :
    xs.takeWhile isExtra = comments ∧ (xs.dropWhile isExtra).head? = some first := by
  obtain ⟨rest, rfl⟩ := h.split
  have hfirst : ¬isExtra first = true := by simp [h.code.1]
  constructor
  · rw [List.takeWhile_append_of_pos h.extras, List.takeWhile_cons_of_neg hfirst, List.append_nil]
  · rw [List.dropWhile_append_of_pos h.extras, List.dropWhile_cons_of_neg hfirst]
    rfl

/-- A construct begins where its first node does. -/
theorem Opening.wrap {kind : String} (h : Opening (fun _ _ _ => true) s xs comments first)
    (hkind : isCodeKind kind = true) (hsort : sort kind true "" = true) :
    ∃ made, Made kind xs made ∧ Grammar.wrap kind xs = comments ++ [made] ∧
      Opening sort s (Grammar.wrap kind xs) comments made := by
  obtain ⟨hcomments, hhead⟩ := h.comments_eq
  -- the node made begins at the opening's first token, so it takes its row
  rcases wrap_cases kind xs with ⟨hnone, -⟩ | ⟨made, hmade, hwrap⟩
  · rw [hnone] at hhead
    cases hhead
  -- the row of the node is the row of its first token; the rest is the opening's own
  · have hrow : made.row = first.row := (hmade.start_eq first hhead).2
    rw [hcomments] at hwrap
    refine ⟨made, hmade, hwrap, ?_⟩
    constructor
    case split => exact ⟨[], hwrap⟩
    case extras => exact h.extras
    case code => exact isExtra_of_isCodeKind (by rw [hmade.kind_eq]; exact hkind)
    case sort_eq => rw [hmade.kind_eq, hmade.named, hmade.role_eq]; exact hsort
    case live => exact h.live
    case row_le => rw [hrow]; exact h.row_le
    case same_row => rw [hrow]; exact h.same_row

/-- What was read goes on to have its first node when it is given a role. -/
theorem Opening.assign {name : String}
    (h : Opening (fun kind named _ => sort kind named name) s xs comments first) :
    Opening sort s (Grammar.assign name xs) comments (first.withRole name) := by
  obtain ⟨rest, hxs⟩ := h.split
  -- comments take no role, so the ones before the first token stay as they are
  have hcomments : Grammar.assign name comments = comments := by
    refine (List.map_congr_left fun n hn => ?_).trans (List.map_id comments)
    rw [if_pos (by rw [h.extras n hn]; rfl)]
    rfl
  have hfirst : (first.withRole name).row = first.row := by cases first; rfl
  constructor
  case split =>
    refine ⟨Grammar.assign name rest, ?_⟩
    rw [hxs]
    show (comments ++ first :: rest).map _ = _
    rw [List.map_append, List.map_cons, if_neg (by simp [h.code])]
    exact congrArg (· ++ _) hcomments
  case extras => exact h.extras
  case code => simpa using h.code
  case sort_eq => cases first; exact h.sort_eq
  case live => exact h.live
  case row_le => rw [hfirst]; exact h.row_le
  case same_row => rw [hfirst]; exact h.same_row

/-- Nodes that are comments only are no construct, and get no role. -/
theorem Neutral.wrap {kind : String} (h : Neutral s xs s') :
    Neutral s (Grammar.wrap kind xs) s' := by
  have hnone : xs.dropWhile isExtra = [] := by
    rw [← List.append_nil xs, List.dropWhile_append_of_pos h.extras]
    rfl
  rcases wrap_cases kind xs with ⟨-, hwrap⟩ | ⟨made, hmade, -⟩
  · rw [hwrap]; exact h
  · exact absurd hnone hmade.nonempty

theorem Neutral.assign {name : String} (h : Neutral s xs s') :
    Neutral s (Grammar.assign name xs) s' := by
  have hsame : Grammar.assign name xs = xs := by
    refine (List.map_congr_left fun n hn => ?_).trans (List.map_id xs)
    rw [if_pos (by rw [h.extras n hn]; rfl)]
    rfl
  rw [hsame]
  exact h

/-- A terminal is read after the comments before it. -/
theorem begins_term {mode : Mode} {t : Terminal} {depth : Nat} (hs : s.place.Sane)
    (h : readTerminal mode t s = .ok (xs, s')) (hleads : leads (depth + 1) must sort (.term t) = true) :
    Begins must sort s xs s' := by
  simp only [leads] at hleads
  split at hleads
  · rename_i hcode
    simp only [Bool.and_eq_true, Bool.not_eq_true', List.all_eq_true] at hleads
    obtain ⟨⟨himmediate, hsolid⟩, hsorts⟩ := hleads
    obtain ⟨kind, named, size, hsize, hscan, hxs, -⟩ := readTerminal_code hcode himmediate h
    obtain ⟨hkind, hsort⟩ := hsorts _ (scan_sorts hscan)
    have hlive : Live s.place := fun hstuck => hsize (scan_stuck hstuck himmediate hsolid hscan)
    refine .inl ⟨(extrasAt s.place).1, (extrasAt s.place).2.leaf kind named size, ?_⟩
    constructor
    case split => exact ⟨[], hxs⟩
    case extras => exact fun n hn => (extrasAt_aside _ n hn).extra
    case code => exact isExtra_of_isCodeKind hkind
    case sort_eq => exact hsort
    case live => exact hlive
    case row_le => exact Nat.le_refl _
    case same_row => exact fun hrow => extrasAt_eq_nil hs hlive hrow
  · rw [Bool.and_eq_true, Bool.not_eq_true'] at hleads
    refine .inr ⟨hleads.1, ?_⟩
    obtain ⟨form, continues⟩ := t
    cases form with
    | sameLine =>
      obtain ⟨rfl, rfl⟩ := readTerminal_sameLine h
      exact .refl _
    | begin =>
      obtain ⟨hxs, hplace⟩ := readTerminal_begin h
      -- the comments that come before the statement are those before its first token
      have hlive : Live s'.place → Live s.place := by
        intro hlive hstuck
        unfold Live at hlive
        rw [hplace, extrasAt, hstuck.extrasWithin_eq] at hlive
        exact hlive hstuck
      constructor
      case extras => rw [hxs]; exact fun n hn => (extrasAt_aside _ n hn).extra
      case row_le => rw [hplace]; exact (extrasAt_leads _).row_le
      case next_row_le => rw [hplace]; exact (extrasAt_leads _).row_le
      case live => exact hlive
      case same_row =>
        intro hl hrow
        rw [hxs]
        exact extrasAt_eq_nil hs (hlive hl) (by rw [← hplace]; exact hrow)
    | _ => cases hleads.2

/-- What a terminal yields was read as this terminal. -/
theorem readTerminal_of_yields {mode : Mode} {t : Terminal}
    (h : table.Yields mode (.term t) s xs s') : readTerminal mode t s = .ok (xs, s') := by
  cases h with
  | term h => exact h

/-- Reading keeps places sane. -/
theorem sane_of_yields {mode : Mode} {a : Phrase} (h : table.Yields mode a s xs s')
    (hs : s.place.Sane) : s'.place.Sane :=
  h.keeps (fun s => s.place.Sane) (fun h hs => Place.Sane.leads hs (readTerminal_sorted h).1) hs

/-- The check goes down at least one step where it succeeds. -/
theorem depth_of_leads {a : Phrase} {depth : Nat} (h : leads depth must sort a = true) :
    ∃ below, depth = below + 1 := by
  cases depth with
  | zero => cases h
  | succ below => exact ⟨below, rfl⟩

/-- **The check of what a rule begins with is sound.** -/
theorem begins_of_yields {mode : Mode} {a : Phrase} (h : table.Yields mode a s xs s')
    (hs : s.place.Sane) {depth : Nat} (hleads : leads depth must sort a = true) :
    Begins must sort s xs s' := by
  -- induction on the yield: each clause begins with its own first part, or with nothing at all
  induction h generalizing depth must sort with
  | term h =>
    obtain ⟨depth, rfl⟩ := depth_of_leads hleads
    exact begins_term hs h hleads
  | call _ ih =>
    obtain ⟨depth, rfl⟩ := depth_of_leads hleads
    exact ih hs hleads
  | empty =>
    obtain ⟨depth, rfl⟩ := depth_of_leads hleads
    exact .inr ⟨by simpa [leads] using hleads, .refl _⟩
  | @seq _ _ _ _ _ _ ys _ h _ ih ih' =>
    obtain ⟨depth, rfl⟩ := depth_of_leads hleads
    simp only [leads, Bool.or_eq_true, Bool.and_eq_true] at hleads
    rcases hleads with hfirst | ⟨hfirst, hsecond⟩
    · obtain ⟨comments, first, hopen⟩ | ⟨hmust, -⟩ := ih hs hfirst
      · exact .inl ⟨comments, first, hopen.append ys⟩
      · cases hmust
    -- the first part may be empty; then the second one decides, and its comments come behind
    · obtain ⟨comments, first, hopen⟩ | ⟨-, hneutral⟩ := ih hs hfirst
      · exact .inl ⟨comments, first, hopen.append ys⟩
      · obtain ⟨comments, first, hopen⟩ | ⟨hmust, hneutral'⟩ := ih' (sane_of_yields h hs) hsecond
        · exact .inl ⟨_, first, hneutral.opening hopen⟩
        · exact .inr ⟨hmust, hneutral.trans hneutral'⟩
  | left _ ih =>
    obtain ⟨depth, rfl⟩ := depth_of_leads hleads
    simp only [leads, Bool.and_eq_true] at hleads
    exact ih hs hleads.1
  | right _ ih =>
    obtain ⟨depth, rfl⟩ := depth_of_leads hleads
    simp only [leads, Bool.and_eq_true] at hleads
    exact ih hs hleads.2
  | stop =>
    obtain ⟨depth, rfl⟩ := depth_of_leads hleads
    simp only [leads, Bool.and_eq_true, Bool.not_eq_true'] at hleads
    exact .inr ⟨hleads.1, .refl _⟩
  | @more _ _ _ _ _ ys _ h _ ih ih' =>
    obtain ⟨depth, rfl⟩ := depth_of_leads hleads
    have hagain := hleads
    simp only [leads, Bool.and_eq_true, Bool.not_eq_true'] at hleads
    obtain ⟨comments, first, hopen⟩ | ⟨-, hneutral⟩ := ih hs hleads.2
    · exact .inl ⟨comments, first, hopen.append ys⟩
    -- each turn of the repetition can begin the row, so the same conditions are asked of the rest
    · obtain ⟨comments, first, hopen⟩ | ⟨hmust, hneutral'⟩ := ih' (sane_of_yields h hs) hagain
      · exact .inl ⟨_, first, hneutral.opening hopen⟩
      · exact .inr ⟨hmust, hneutral.trans hneutral'⟩
  | ahead =>
    obtain ⟨depth, rfl⟩ := depth_of_leads hleads
    exact .inr ⟨by simpa [leads] using hleads, .refl _⟩
  | avoid =>
    obtain ⟨depth, rfl⟩ := depth_of_leads hleads
    exact .inr ⟨by simpa [leads] using hleads, .refl _⟩
  | node _ ih =>
    obtain ⟨depth, rfl⟩ := depth_of_leads hleads
    simp only [leads, Bool.and_eq_true] at hleads
    obtain ⟨comments, first, hopen⟩ | ⟨hmust, hneutral⟩ := ih hs hleads.2
    · obtain ⟨made, -, -, hmade⟩ := hopen.wrap hleads.1.1 hleads.1.2
      exact .inl ⟨comments, made, hmade⟩
    · exact .inr ⟨hmust, hneutral.wrap⟩
  | @group _ kind _ _ xs _ _ ih =>
    obtain ⟨depth, rfl⟩ := depth_of_leads hleads
    simp only [leads, Bool.and_eq_true] at hleads
    obtain ⟨comments, first, hopen⟩ | ⟨hmust, hneutral⟩ := ih hs hleads.2
    · rcases gather_cases kind xs with hgather | hgather
      -- a group of one part hands its opening on; anything longer is a node of its own
      · rw [hgather]; exact .inl ⟨comments, first, hopen⟩
      · rw [hgather]
        have hany : Opening (fun _ _ _ => true) _ xs comments first :=
          { hopen with sort_eq := rfl }
        obtain ⟨made, -, -, hmade⟩ := hany.wrap hleads.1.1 hleads.1.2
        exact .inl ⟨comments, made, hmade⟩
    · rcases gather_cases kind xs with hgather | hgather
      · rw [hgather]; exact .inr ⟨hmust, hneutral⟩
      · rw [hgather]; exact .inr ⟨hmust, hneutral.wrap⟩
  | role _ ih =>
    obtain ⟨depth, rfl⟩ := depth_of_leads hleads
    obtain ⟨comments, first, hopen⟩ | ⟨hmust, hneutral⟩ := ih hs hleads
    · exact .inl ⟨comments, _, hopen.assign⟩
    · exact .inr ⟨hmust, hneutral.assign⟩
  | within _ ih =>
    obtain ⟨depth, rfl⟩ := depth_of_leads hleads
    exact ih hs hleads

end Docsmith.Python
