import Docsmith.Proofs.Grammar.Place
import Docsmith.Proofs.Grammar.Yields
import Docsmith.Python.Grammar

namespace Docsmith.Python

open Grammar

/-!
# Where tokens begin

A token begins where the white space, the comments and the line joints before it end.  A comment takes
the rest of its line, so that a token on the same line has none before it.

* `extrasAt`: the comments and joints at a place, and the place after them.
* `Live`: there is something to read after them.
* `extrasAt_eq_nil`: a token on the same line has no comment before it.
* `row_lt_of_gap`: what comes after the end of a line is on a later one.
* `readTerminal_code`, `readTerminal_mark`: what reading a terminal finds.
-/

variable {p q : Place}

/-! ### White space, comments and joints -/

theorem skipBlanks_leads (steps : Nat) (p : Place) : p.Leads (skipBlanks steps p) := by
  induction steps generalizing p with
  | zero => exact .refl p
  | succ steps ih =>
    unfold skipBlanks
    dsimp only
    split
    · exact .refl p
    · exact (Place.Leads.advance p _).trans (ih _)

/-- Where no white space stands, none is skipped. -/
theorem skipBlanks_eq_self (h : blankLength p.rest = 0) (steps : Nat) : skipBlanks steps p = p := by
  cases steps with
  | zero => rfl
  | succ steps => simp [skipBlanks, h]

/-- White space of single bytes is skipped up to what comes after it. -/
theorem skipBlanks_append {w r : Bytes} (hrest : p.rest = w ++ r) (hw : Bytes.blank w = true)
    (steps : Nat) (hsteps : w.length ≤ steps) :
    skipBlanks steps p = skipBlanks (steps - w.length) (p.advance w.length) := by
  induction w generalizing p steps with
  | nil => rfl
  | cons b w ih =>
    obtain ⟨hb, hw⟩ := Bool.and_eq_true_iff.mp hw
    cases steps with
    | zero => simp at hsteps
    | succ steps =>
      have hlength : blankLength p.rest = 1 := by simp [hrest, blankLength, hb]
      have hnext : (p.advance 1).rest = w ++ r := by rw [Place.rest_advance, hrest]; rfl
      rw [skipBlanks]
      simp only [hlength, Nat.one_ne_zero, beq_iff_eq, if_false]
      rw [ih hnext hw steps (by simpa using hsteps), Place.advance_add, List.length_cons,
        Nat.add_sub_add_right, Nat.add_comm 1]

/-- White space with a line feed ends on a later row. -/
theorem skipBlanks_row_lt {w t : Bytes} (hrest : p.rest = w ++ Bytes.newline :: t)
    (hw : Bytes.blank w = true) {steps : Nat} (hsteps : w.length < steps) :
    p.row < (skipBlanks steps p).row := by
  have hall : Bytes.blank (w ++ [Bytes.newline]) = true := by
    rw [Bytes.blank, List.all_append, Bool.and_eq_true]
    exact ⟨hw, rfl⟩
  have hrest' : p.rest = (w ++ [Bytes.newline]) ++ t := by rw [hrest]; simp
  rw [skipBlanks_append hrest' hall steps (by rw [List.length_append]; exact hsteps)]
  refine Nat.lt_of_lt_of_le ?_ (skipBlanks_leads _ _).row_le
  rw [Place.row_advance, hrest', List.take_left']
  · simp
  · rfl

/-- A joint is a backslash with the end of its line, or the last byte of the source. -/
theorem jointLength_cases {bytes : Bytes} (h : jointLength bytes ≠ 0) :
    (∃ t, bytes = 0x5c :: Bytes.newline :: t ∧ jointLength bytes = 2) ∨
      (∃ t, bytes = 0x5c :: 0x0d :: Bytes.newline :: t ∧ jointLength bytes = 3) ∨
      bytes = [0x5c] ∧ jointLength bytes = 1 := by
  unfold jointLength at h ⊢
  split at h
  -- only a backslash joins lines, and the cases are how many bytes of a line's end follow it
  · rename_i a rest
    by_cases ha : a = 0x5c
    · subst ha
      match rest with
      | [] => exact .inr (.inr ⟨rfl, rfl⟩)
      | [b] =>
        by_cases hb : b = 0x0a
        · subst hb; exact .inl ⟨[], rfl, rfl⟩
        · simp [hb] at h
      | b :: c :: t =>
        by_cases hb : b = 0x0a
        · subst hb; exact .inl ⟨c :: t, rfl, rfl⟩
        · by_cases hc : b = 0x0d ∧ c = 0x0a
          · obtain ⟨rfl, rfl⟩ := hc
            exact .inr (.inl ⟨t, rfl, rfl⟩)
          · simp only [List.take_succ_cons, List.take_zero] at h
            simp [hb, hc] at h
    · simp [ha] at h
  · simp at h

/-- A comment or joint as it is read: a named node without children that plays no role. -/
structure Aside (n : Node) : Prop where
  extra : isExtra n = true
  named : n.named = true
  role_eq : n.role = ""
  leaf : n.children = []

/-- What a comment or joint is, and what comes after it: a comment ends before a line feed, a zero
    byte or the end, and a joint takes its line feed along unless the source ends. -/
theorem extra?_cases {n : Node} (h : extra? p = some (n, q)) :
    (skipBlanks p.limit p).Leads q ∧ Aside n ∧
      ((skipBlanks p.limit p).row < q.row ∨ q.rest = [] ∨
        ∃ b t, q.rest = b :: t ∧ (b = 0 ∨ b = Bytes.newline)) := by
  unfold extra? at h
  dsimp only at h
  split at h
  · rename_i b rest hrest
    -- a comment runs to the end of its line; a joined line takes the line feed with it and moves the row
    split at h
    · cases h
      refine ⟨.advance _ _, ⟨rfl, rfl, rfl, rfl⟩, .inr ?_⟩
      rw [Place.rest_advance]
      exact drop_lineLength _
    · split at h
      · cases h
      · cases h
        refine ⟨.advance _ _, ⟨rfl, rfl, rfl, rfl⟩, ?_⟩
        rename_i hjoint
        rw [Place.row_advance, Place.rest_advance]
        -- the last of the three is a backslash at the end of the file, where no row is left to reach
        rcases jointLength_cases (by simpa using hjoint) with
          ⟨t, hjoint, hlength⟩ | ⟨t, hjoint, hlength⟩ | ⟨hjoint, hlength⟩
        · rw [hlength, hjoint]; exact .inl (by simp)
        · rw [hlength, hjoint]; exact .inl (by simp)
        · rw [hlength, hjoint]; exact .inr (.inl rfl)
  · cases h

theorem extra?_leads {n : Node} (h : extra? p = some (n, q)) : p.Leads q :=
  (skipBlanks_leads _ _).trans (extra?_cases h).1

theorem extrasUntil_leads (stop : Place → Bool) (steps : Nat) (p : Place) :
    p.Leads (extrasUntil stop steps p).2.1 := by
  induction steps generalizing p with
  | zero => exact .refl p
  | succ steps ih =>
    unfold extrasUntil
    split
    · exact .refl p
    · split
      · exact .refl p
      · rename_i n q hextra
        exact (extra?_leads hextra).trans (ih q)

theorem extrasUntil_aside (stop : Place → Bool) (steps : Nat) (p : Place) :
    ∀ n ∈ (extrasUntil stop steps p).1, Aside n := by
  induction steps generalizing p with
  | zero => intro n hn; cases hn
  | succ steps ih =>
    unfold extrasUntil
    split
    · intro n hn; cases hn
    · split
      · intro n hn; cases hn
      · rename_i m q hextra
        intro n hn
        rcases List.mem_cons.mp hn with rfl | hn
        · exact (extra?_cases hextra).2.1
        · exact ih q n hn

/-- Whoever takes comments and is not stopped takes all of them. -/
theorem extrasUntil_of_not_held {stop : Place → Bool} {steps : Nat} {comments : List Node}
    (h : extrasUntil stop steps p = (comments, q, false)) :
    extrasUntil (fun _ => false) steps p = (comments, q, false) := by
  -- a reading that was never stopped reads the same without the stop; induction on its steps
  induction steps generalizing p comments with
  | zero => exact h
  | succ steps ih =>
    unfold extrasUntil at h ⊢
    split at h
    · cases h
    · rw [if_neg Bool.false_ne_true]
      split at h
      · exact h
      · rename_i n r hextra
        cases hmore : extrasUntil stop steps r with
        | mk more rest =>
          obtain ⟨place, held⟩ := rest
          rw [hmore] at h
          obtain ⟨rfl, rfl, rfl⟩ : comments = n :: more ∧ q = place ∧ false = held := by
            simpa [eq_comm] using h
          rw [ih hmore]

/-- Whoever is stopped is at a place where the stop holds. -/
theorem extrasUntil_held {stop : Place → Bool} {steps : Nat} {comments : List Node}
    (h : extrasUntil stop steps p = (comments, q, true)) : stop q = true := by
  -- the only way to be held is at the stop itself, so the induction just follows the reading
  induction steps generalizing p comments with
  | zero => cases h
  | succ steps ih =>
    unfold extrasUntil at h
    split at h
    · rename_i hstop
      cases h
      exact hstop
    · split at h
      · cases h
      · rename_i n r hextra
        cases hmore : extrasUntil stop steps r with
        | mk more rest =>
          obtain ⟨place, held⟩ := rest
          rw [hmore] at h
          obtain ⟨-, rfl, rfl⟩ : comments = n :: more ∧ q = place ∧ true = held := by
            simpa [eq_comm] using h
          exact ih hmore

/-! ### The next token -/

/-- The comments and joints at a place, and the place of what comes after them.  The first argument
    bounds the number of comments. -/
def extrasWithin (steps : Nat) (p : Place) : List Node × Place :=
  let taken := extrasUntil (fun _ => false) steps p
  (taken.1, skipBlanks taken.2.1.limit taken.2.1)

/-- The comments and joints at a place, and the place of what comes after them. -/
def extrasAt (p : Place) : List Node × Place := extrasWithin (p.limit + 1) p

theorem extrasWithin_leads (steps : Nat) (p : Place) : p.Leads (extrasWithin steps p).2 :=
  (extrasUntil_leads _ steps p).trans (skipBlanks_leads _ _)

theorem extrasAt_leads (p : Place) : p.Leads (extrasAt p).2 := extrasWithin_leads _ p

/-- The comments at a place are none, or one and those after it. -/
theorem extrasWithin_succ (steps : Nat) (p : Place) :
    extra? p = none ∧ extrasWithin (steps + 1) p = ([], skipBlanks p.limit p) ∨
      ∃ n q, extra? p = some (n, q) ∧
        extrasWithin (steps + 1) p = (n :: (extrasWithin steps q).1, (extrasWithin steps q).2) := by
  simp only [extrasWithin, extrasUntil, Bool.false_eq_true, if_false]
  cases hextra : extra? p with
  | none => exact .inl ⟨rfl, rfl⟩
  | some x => exact .inr ⟨x.1, x.2, rfl, rfl⟩

/-- Nothing can be read at a place: the source has ended, or goes on with a zero byte. -/
def Stuck (p : Place) : Prop := p.rest = [] ∨ ∃ t, p.rest = 0 :: t

/-- There is something to read after the comments at a place. -/
def Live (p : Place) : Prop := ¬Stuck (extrasAt p).2

/-- Where nothing can be read there is no white space. -/
theorem Stuck.skipBlanks_eq (h : Stuck p) (steps : Nat) : skipBlanks steps p = p := by
  apply skipBlanks_eq_self
  rcases h with h | ⟨t, h⟩ <;> rw [h] <;> rfl

/-- Where nothing can be read there is no comment or joint. -/
theorem Stuck.extra?_eq (h : Stuck p) : extra? p = none := by
  unfold extra?
  rw [h.skipBlanks_eq]
  rcases h with h | ⟨t, h⟩ <;> simp [h, jointLength]

theorem Stuck.extrasWithin_eq (h : Stuck p) (steps : Nat) : extrasWithin steps p = ([], p) := by
  cases steps with
  | zero => simp only [extrasWithin, extrasUntil, h.skipBlanks_eq]
  | succ steps =>
    rcases extrasWithin_succ steps p with ⟨-, hnone⟩ | ⟨n, q, hextra, -⟩
    · rw [hnone, h.skipBlanks_eq]
    · rw [h.extra?_eq] at hextra
      cases hextra

/-- After white space with a line feed, what comes next is on a later row. -/
theorem extrasWithin_row_lt {w t : Bytes} (hp : p.Sane) (hrest : p.rest = w ++ Bytes.newline :: t)
    (hw : Bytes.blank w = true) (steps : Nat) : p.row < (extrasWithin steps p).2.row := by
  have hsteps : w.length < p.limit := by
    have := hp
    rw [Place.Sane, hrest, List.length_append, List.length_cons] at this
    omega
  have hrow := skipBlanks_row_lt hrest hw hsteps
  cases steps with
  | zero => exact hrow
  | succ steps =>
    rcases extrasWithin_succ steps p with ⟨-, hnone⟩ | ⟨n, q, hextra, hmore⟩
    · rw [hnone]
      exact hrow
    · rw [hmore]
      have hq : (skipBlanks p.limit p).row ≤ q.row := (extra?_cases hextra).1.row_le
      exact Nat.lt_of_lt_of_le hrow (Nat.le_trans hq (extrasWithin_leads steps q).row_le)

/-- **A token has no comment before it on its own line.** -/
theorem extrasAt_eq_nil (hp : p.Sane) (hlive : Live p) (hrow : (extrasAt p).2.row = p.row) :
    (extrasAt p).1 = [] := by
  unfold Live extrasAt at *
  rcases extrasWithin_succ p.limit p with ⟨-, hnone⟩ | ⟨n, q, hextra, hmore⟩
  · rw [hnone]
  · exfalso
    have hq : p.Leads q := extra?_leads hextra
    have hstay : (extrasWithin p.limit q).2.row = p.row := by rw [← hrow, hmore]
    have hstuck : ¬Stuck q := by
      intro h
      rw [hmore, h.extrasWithin_eq] at hlive
      exact hlive h
    rcases (extra?_cases hextra).2.2 with hlater | hend | ⟨b, t, hb, rfl | rfl⟩
    · have hfirst := (skipBlanks_leads p.limit p).row_le
      have hlast := (extrasWithin_leads p.limit q).row_le
      omega
    · exact hstuck (.inl hend)
    · exact hstuck (.inr ⟨t, hb⟩)
    · -- the line feed after the comment is passed on the way to the token
      have hlast := extrasWithin_row_lt (w := []) (hp.leads hq) hb rfl p.limit
      have hfirst := hq.row_le
      omega

/-- A gap that ends a line before something indented begins with white space up to a line feed, or up
    to a joint. -/
theorem measure?_cases {g g' : Gap} {bytes : Bytes} (h : Gap.measure? true false g bytes = some g')
    (hopen : g.endsLine = false) (hends : g'.endsLine = true) (hindent : 0 < g'.indent) :
    ∃ w c t, bytes = w ++ c :: t ∧ Bytes.blank w = true ∧
      (c = Bytes.newline ∨ 2 ≤ jointLength (c :: t)) := by
  induction bytes generalizing g with
  | nil =>
    simp only [Gap.measure?, Option.some.injEq] at h
    rw [← h] at hindent
    exact absurd hindent (by simp)
  | cons b rest ih =>
    have hskip : ∀ {next : Gap}, Gap.measure? true false next rest = some g' →
        next.endsLine = false → Bytes.isBlank b = true →
        ∃ w c t, b :: rest = w ++ c :: t ∧ Bytes.blank w = true ∧
          (c = Bytes.newline ∨ 2 ≤ jointLength (c :: t)) := by
      intro next hmore hnext hb
      obtain ⟨w, c, t, hrest, hw, hc⟩ := ih hmore hnext
      refine ⟨b :: w, c, t, by rw [hrest]; rfl, ?_, hc⟩
      rw [Bytes.blank, List.all_cons, Bool.and_eq_true]
      exact ⟨hb, hw⟩
    unfold Gap.measure? at h
    split at h
    · rename_i hb
      exact ⟨[], b, rest, rfl, rfl, .inl (eq_of_beq hb)⟩
    · split at h
      · rename_i hb
        exact hskip h hopen (by rw [eq_of_beq hb]; rfl)
      · split at h
        · rename_i hb
          refine hskip h hopen ?_
          rcases Bool.or_eq_true_iff.mp hb with hb | hb <;> rw [eq_of_beq hb] <;> rfl
        · split at h
          · rename_i hb
            exact hskip h hopen (by rw [eq_of_beq hb]; rfl)
          · split at h
            · rw [hopen] at h
              cases h
            · split at h
              · rename_i hb
                obtain rfl := eq_of_beq hb
                refine ⟨[], 0x5c, rest, rfl, rfl, .inr ?_⟩
                -- a backslash that is passed over stands before the end of its line
                match rest with
                | [] =>
                  simp only [Option.some.injEq] at h
                  rw [← h] at hindent
                  exact absurd hindent (by simp)
                | c :: more =>
                  dsimp only at h
                  split at h
                  · rename_i hc
                    obtain rfl := eq_of_beq hc
                    exact Nat.le_refl 2
                  · split at h
                    · rename_i hc
                      obtain rfl := eq_of_beq hc
                      match more with
                      | [] =>
                        simp only [Option.some.injEq] at h
                        rw [← h] at hindent
                        exact absurd hindent (by simp)
                      | d :: more =>
                        dsimp only at h
                        split at h
                        · rename_i hd
                          obtain rfl := eq_of_beq hd
                          exact Nat.le_succ 2
                        · cases h
                    · cases h
              · simp only [Option.some.injEq] at h
                rw [← h, hopen] at hends
                cases hends

/-- A joint after white space leads to a later row. -/
theorem extra?_joint {w t : Bytes} {c : UInt8} (hp : p.Sane) (hrest : p.rest = w ++ c :: t)
    (hw : Bytes.blank w = true) (hjoint : 2 ≤ jointLength (c :: t)) :
    ∃ n q, extra? p = some (n, q) ∧ p.row < q.row := by
  have hlimit : w.length ≤ p.limit := by
    have := hp
    rw [Place.Sane, hrest, List.length_append] at this
    omega
  have hne : jointLength (c :: t) ≠ 0 := by omega
  have hc : c = 0x5c := by
    -- a joint of two bytes or more begins with the backslash, which is no blank
    rcases jointLength_cases hne with ⟨t, h, -⟩ | ⟨t, h, -⟩ | ⟨h, -⟩ <;> cases h <;> rfl
  have hafter : (p.advance w.length).rest = c :: t := by
    rw [Place.rest_advance, hrest, List.drop_left]
  have hskip : skipBlanks p.limit p = p.advance w.length := by
    rw [skipBlanks_append hrest hw _ hlimit, skipBlanks_eq_self]
    rw [hafter, hc]
    rfl
  -- and it holds a line feed, so the row behind it is a later one
  have hcount : 0 < ((c :: t).take (jointLength (c :: t))).count Bytes.newline := by
    rcases jointLength_cases hne with ⟨t, h, hl⟩ | ⟨t, h, hl⟩ | ⟨h, hl⟩
    · rw [hl, h]; simp
    · rw [hl, h]; simp
    · omega
  refine ⟨(p.advance w.length).leaf "line_continuation" true (jointLength (c :: t)),
    (p.advance w.length).advance (jointLength (c :: t)), ?_, ?_⟩
  · subst hc
    have hzero : (jointLength (0x5c :: t) == 0) = false := beq_eq_false_iff_ne.mpr hne
    simp only [extra?, hskip, hafter]
    simp [hzero]
  · rw [Place.row_advance, hafter]
    have hfirst := (Place.Leads.advance p w.length).row_le
    omega

/-- **What comes after the end of a line is on a later one**, if it is indented. -/
theorem row_lt_of_gap {g : Gap} (hp : p.Sane) (h : gapOver p = some g) (hends : g.endsLine = true)
    (hindent : 0 < g.indent) : p.row < (extrasAt p).2.row := by
  obtain ⟨w, c, t, hrest, hw, rfl | hjoint⟩ := measure?_cases h rfl hends hindent
  · exact extrasWithin_row_lt hp hrest hw _
  · -- the joint is the next thing that is read
    obtain ⟨n, q, hextra, hrow⟩ := extra?_joint hp hrest hw hjoint
    rcases extrasWithin_succ p.limit p with ⟨hnone, -⟩ | ⟨n', q', hq, hmore⟩
    · rw [hextra] at hnone
      cases hnone
    · rw [hextra] at hq
      cases hq
      rw [extrasAt, hmore]
      exact Nat.lt_of_lt_of_le hrow (extrasWithin_leads p.limit q).row_le

/-! ### Reading terminals -/

/-- The form stands for code, and not for a mark of the layout. -/
def Form.isCode : Form → Bool
  | .begin | .newline | .indent | .dedent | .sameLine | .finish => false
  | _ => true

/-- The kinds of nodes that a form may find, and whether they are named. -/
def Form.sorts : Form → List (String × Bool)
  | .word text => [(text, false)]
  | .name _ => [("identifier", true)]
  | .symbol accepted _ => accepted.map (·, false)
  | .ellipsis => [("ellipsis", true)]
  | .number => [("number", true)]
  | .stringStart => [("string_start", true)]
  | .stringContent => [("string_content", true)]
  | .stringEnd => [("string_end", true)]
  | .conversion => [("type_conversion", true)]
  | .formatText => [("format_text", false)]
  | _ => []

/-- The form finds something only where something is: none of its texts is empty or begins with a
    zero byte. -/
def Form.solid : Form → Bool
  | .symbol accepted _ => accepted.all fun t => (Text.encode t).head?.any (· != 0)
  | _ => true

/-- A form finds a node of one of its sorts. -/
theorem scan_sorts {form : Form} {s : State} {bytes : Bytes} {kind : String} {named : Bool}
    {size : Nat} (h : form.scan s bytes = some (kind, named, size)) :
    (kind, named) ∈ form.sorts := by
  -- each form lists its sorts, so the cases only check that no other can come out
  cases form with
  | word text =>
    simp only [Form.scan] at h
    split at h
    · cases h; simp [Form.sorts]
    · cases h
  | name reserved =>
    simp only [Form.scan] at h
    split at h
    · cases h; simp [Form.sorts]
    · cases h
  | symbol accepted rivals =>
    simp only [Form.scan] at h
    split at h
    · split at h
      · rename_i hmem
        cases h
        simpa [Form.sorts] using hmem
      · cases h
    · cases h
  | ellipsis =>
    simp only [Form.scan] at h
    split at h
    · cases h; simp [Form.sorts]
    · cases h
  | number => cases h; simp [Form.sorts]
  | stringStart =>
    simp only [Form.scan, Option.map_eq_some_iff] at h
    obtain ⟨q, -, hq⟩ := h
    cases hq; simp [Form.sorts]
  | stringContent =>
    simp only [Form.scan] at h
    split at h
    · simp only [Option.map_eq_some_iff] at h
      obtain ⟨n, -, hn⟩ := h
      cases hn; simp [Form.sorts]
    · cases h
  | stringEnd =>
    simp only [Form.scan] at h
    split at h
    · split at h
      · cases h; simp [Form.sorts]
      · cases h
    · cases h
  | conversion =>
    simp only [Form.scan] at h
    split at h
    · split at h
      · cases h; simp [Form.sorts]
      · cases h
    · cases h
  | formatText => cases h; simp [Form.sorts]
  | _ => cases h

/-- No number begins where nothing can be read. -/
theorem numberLength_stuck (h : Stuck p) : numberLength p.rest = 0 := by
  rcases h with h | ⟨t, h⟩
  · rw [h]; rfl
  · have hbased : basedLength (0 :: t) = 0 := by cases t <;> rfl
    have hwhole : looseDigits isDigit (0 :: t) = 0 := by unfold looseDigits; rfl
    have hdecimal : decimalLength (0 :: t) = 0 := by
      unfold decimalLength
      rw [hwhole]
      rfl
    rw [h, numberLength, hbased, hdecimal]
    rfl

/-- Where nothing can be read, a form finds nothing, unless it takes bytes as they come. -/
theorem scan_stuck {form : Form} {s : State} {kind : String} {named : Bool} {size : Nat}
    (hp : Stuck p) (himmediate : form.immediate = false) (hsolid : form.solid = true)
    (h : form.scan s p.rest = some (kind, named, size)) : size = 0 := by
  -- where reading is stuck the text is empty or goes on with a zero byte: no name, number or quote there
  have hname : nameLength p.rest = 0 := by rcases hp with hp | ⟨t, hp⟩ <;> rw [hp] <;> rfl
  cases form with
  | word text => simp [Form.scan, hname] at h
  | name reserved => simp [Form.scan, hname] at h
  -- an accepted symbol begins with ink, so it cannot begin where there is none
  | symbol accepted rivals =>
    simp only [Form.scan] at h
    split at h
    · rename_i t hlongest
      split at h
      · rename_i hmem
        have hstarts := startsWith_of_longestOf hlongest
        have hhead := List.all_eq_true.mp hsolid t (by simpa using hmem)
        cases hbytes : Text.encode t with
        | nil => rw [hbytes] at hhead; cases hhead
        | cons b bytes =>
          rw [hbytes] at hhead hstarts
          rcases hp with hp | ⟨u, hp⟩
          · rw [hp] at hstarts; cases hstarts
          · rw [hp, startsWith, Bool.and_eq_true, beq_iff_eq] at hstarts
            rw [hstarts.1] at hhead
            cases hhead
      · cases h
    · cases h
  | ellipsis => rcases hp with hp | ⟨t, hp⟩ <;> simp [Form.scan, hp, startsWith] at h
  | number =>
    rw [Form.scan, numberLength_stuck hp] at h
    cases h
    rfl
  | stringStart => rcases hp with hp | ⟨t, hp⟩ <;> rw [hp] at h <;> cases h
  | conversion =>
    rcases hp with hp | ⟨t, hp⟩
    · rw [hp] at h; cases h
    · rw [hp] at h
      cases t <;> simp [Form.scan] at h
  | stringContent => cases himmediate
  -- a form that reads at once is excluded: it does not pass over what it is stuck at
  | stringEnd => cases himmediate
  | formatText => cases himmediate
  | _ => cases h

/-- Reading code yields the comments before it and a node of the form. -/
theorem readCode_ok {form : Form} {comments xs : List Node} {s s' : State}
    (h : readCode form comments p s = .ok (xs, s')) :
    ∃ kind named size, size ≠ 0 ∧
      form.scan s (if form.immediate then p else skipBlanks p.limit p).rest
        = some (kind, named, size) ∧
      xs = comments ++ [(if form.immediate then p else skipBlanks p.limit p).leaf kind named size] ∧
      s'.place = (if form.immediate then p else skipBlanks p.limit p).advance size := by
  simp only [readCode] at h
  split at h
  · rename_i kind named size hscan
    split at h
    · cases h
    · rename_i hsize
      cases h
      exact ⟨kind, named, size, by simpa using hsize, hscan, rfl, rfl⟩
  · cases h

/-- A form that stands for code and is not read right at the place is read after the comments. -/
theorem readTerminal_eq {mode : Mode} {t : Terminal} {s s' : State} {xs : List Node}
    (hcode : t.form.isCode = true) (himmediate : t.form.immediate = false)
    (h : readTerminal mode t s = .ok (xs, s')) :
    ∃ comments q held, extrasUntil (fun _ => false) (s.place.limit + 1) s.place = (comments, q, held) ∧
      readCode t.form comments q s = .ok (xs, s') := by
  obtain ⟨form, continues⟩ := t
  -- a form of code is read as a token, whichever it is; marks are read apart
  have hbody : readTerminal mode ⟨form, continues⟩ s = readToken mode ⟨form, continues⟩ s := by
    cases form <;> first | rfl | cases hcode
  rw [hbody, readToken] at h
  simp only [himmediate] at h
  rw [if_neg Bool.false_ne_true] at h
  split at h
  · split at h
    · cases h
    · exact ⟨_, _, _, rfl, h⟩
  · split at h
    · cases h
    · rename_i comments q hextras
      exact ⟨comments, q, false, extrasUntil_of_not_held hextras, h⟩

/-- **Reading code** finds it after the comments at the place, which it yields too. -/
theorem readTerminal_code {mode : Mode} {t : Terminal} {s s' : State} {xs : List Node}
    (hcode : t.form.isCode = true) (himmediate : t.form.immediate = false)
    (h : readTerminal mode t s = .ok (xs, s')) :
    ∃ kind named size, size ≠ 0 ∧
      t.form.scan s (extrasAt s.place).2.rest = some (kind, named, size) ∧
      xs = (extrasAt s.place).1 ++ [(extrasAt s.place).2.leaf kind named size] ∧
      s'.place = (extrasAt s.place).2.advance size := by
  obtain ⟨comments, q, held, hextras, hread⟩ := readTerminal_eq hcode himmediate h
  have hat : extrasAt s.place = (comments, skipBlanks q.limit q) := by
    simp only [extrasAt, extrasWithin, hextras]
  obtain ⟨kind, named, size, hsize, hscan, hxs, hplace⟩ := readCode_ok hread
  simp only [himmediate, Bool.false_eq_true, if_false] at hscan hxs hplace
  rw [hat]
  exact ⟨kind, named, size, hsize, hscan, hxs, hplace⟩

/-- A statement begins after the comments at the place. -/
theorem readTerminal_begin {mode : Mode} {continues : Bool} {s s' : State} {xs : List Node}
    (h : readTerminal mode ⟨.begin, continues⟩ s = .ok (xs, s')) :
    xs = (extrasAt s.place).1 ∧ s'.place = (extrasAt s.place).2 := by
  simp only [readTerminal] at h
  split at h
  · cases h
  · rename_i comments q hextras
    have hat : extrasAt s.place = (comments, skipBlanks q.limit q) := by
      simp only [extrasAt, extrasWithin, extrasUntil_of_not_held hextras]
    split at h
    · cases h
    · cases h
      rw [hat]
      exact ⟨rfl, rfl⟩

/-- That a line goes on is no node. -/
theorem readTerminal_sameLine {mode : Mode} {continues : Bool} {s s' : State} {xs : List Node}
    (h : readTerminal mode ⟨.sameLine, continues⟩ s = .ok (xs, s')) : xs = [] ∧ s' = s := by
  simp only [readTerminal] at h
  split at h
  · cases h
  · cases h
    exact ⟨rfl, rfl⟩

/-- A mark stands after some comments, at a place where it may stand. -/
theorem readMark_ok {stop : Place → Bool} {ended : Bool} {s s' : State} {update : Gap → State → State}
    {xs : List Node} (h : readMark stop ended s update = .ok (xs, s'))
    (hupdate : ∀ g s, (update g s).place = s.place) :
    ∃ comments q, xs = comments ++ [markAt q] ∧
      (∀ n ∈ comments, Aside n) ∧
      s.place.Leads q ∧ stop q = true ∧ s'.place = q := by
  simp only [readMark] at h
  split at h
  · rename_i comments q hextras
    cases h
    refine ⟨comments, q, rfl, ?_, ?_, extrasUntil_held hextras, hupdate _ _⟩
    · have := extrasUntil_aside stop (s.place.limit + 1) s.place
      rwa [hextras] at this
    · have := extrasUntil_leads stop (s.place.limit + 1) s.place
      rwa [hextras] at this
  · cases h

/-- The marks of the layout: where a line ends, and where a block begins and ends. -/
theorem readTerminal_mark {mode : Mode} {t : Terminal} {s s' : State} {xs : List Node}
    (hform : t.form = .newline ∨ t.form = .indent ∨ t.form = .dedent)
    (h : readTerminal mode t s = .ok (xs, s')) :
    ∃ comments q, xs = comments ++ [markAt q] ∧
      (∀ n ∈ comments, Aside n) ∧
      s.place.Leads q ∧ s'.place = q ∧
      (t.form = .indent → ∃ g, gapOver q = some g ∧ g.endsLine = true ∧ 0 < g.indent) := by
  obtain ⟨form, continues⟩ := t
  -- a row's end, an indentation and a dedentation leave a mark where the row stood
  rcases hform with rfl | rfl | rfl <;> simp only [readTerminal] at h
  · obtain ⟨comments, q, hxs, hextra, hleads, -, hplace⟩ := readMark_ok h fun _ _ => rfl
    exact ⟨comments, q, hxs, hextra, hleads, hplace, by rintro ⟨⟩⟩
  · obtain ⟨comments, q, hxs, hextra, hleads, hstop, hplace⟩ := readMark_ok h fun _ _ => rfl
    refine ⟨comments, q, hxs, hextra, hleads, hplace, fun _ => ?_⟩
    cases hgap : gapOver q with
    | none => rw [hgap] at hstop; cases hstop
    | some g =>
      rw [hgap, Option.any_some, Bool.and_eq_true, decide_eq_true_eq] at hstop
      exact ⟨g, rfl, hstop.1, by omega⟩
  · obtain ⟨comments, q, hxs, hextra, hleads, -, hplace⟩ := readMark_ok h fun _ _ => rfl
    exact ⟨comments, q, hxs, hextra, hleads, hplace, by rintro ⟨⟩⟩

/-- The comments at a place are comments. -/
theorem extrasAt_aside (p : Place) :
    ∀ n ∈ (extrasAt p).1, Aside n :=
  extrasUntil_aside _ _ p

/-- What reading a terminal yields: comments, marks, and nodes of the sorts of its form, none of which
    has children or plays a role. -/
structure Sorted (form : Form) (x : Node) : Prop where
  leaf : x.children = []
  role_eq : x.role = ""
  sort : Aside x ∨ isMark x = true ∨ (x.kind, x.named) ∈ form.sorts

/-- Comments are of the sorts of every form. -/
theorem Sorted.of_aside {form : Form} {x : Node} (h : Aside x) : Sorted form x :=
  ⟨h.leaf, h.role_eq, .inl h⟩

/-- The comments and the last node that reading a terminal yields. -/
theorem Sorted.append {form : Form} {comments : List Node} {last : Node}
    (hcomments : ∀ n ∈ comments, Aside n) (hlast : Sorted form last) :
    ∀ x ∈ comments ++ [last], Sorted form x := by
  intro x hx
  rcases List.mem_append.mp hx with hx | hx
  · exact .of_aside (hcomments x hx)
  · rw [List.mem_singleton.mp hx]
    exact hlast

/-- **Reading a terminal** moves on, and yields what its form says. -/
theorem readTerminal_sorted {mode : Mode} {t : Terminal} {s s' : State} {xs : List Node}
    (h : readTerminal mode t s = .ok (xs, s')) :
    s.place.Leads s'.place ∧ ∀ x ∈ xs, Sorted t.form x := by
  have hmark : ∀ (form : Form) (q : Place), Sorted form (markAt q) :=
    fun form q => ⟨rfl, rfl, .inr (.inl rfl)⟩
  obtain ⟨form, continues⟩ := t
  -- code and marks are read by different functions, and each knows what it can leave
  cases hform : form.isCode with
  | true =>
    cases himmediate : form.immediate with
    | true =>
      have hread : readCode form [] s.place s = .ok (xs, s') := by
        cases form <;> first | exact h | cases himmediate
      obtain ⟨kind, named, size, -, hscan, hxs, hplace⟩ := readCode_ok hread
      simp only [himmediate, if_true] at hscan hxs hplace
      rw [hplace, hxs]
      refine ⟨.advance _ _, Sorted.append (fun n hn => by cases hn) ⟨rfl, rfl, ?_⟩⟩
      exact .inr (.inr (scan_sorts hscan))
    | false =>
      obtain ⟨kind, named, size, -, hscan, hxs, hplace⟩ := readTerminal_code hform himmediate h
      rw [hplace, hxs]
      refine ⟨(extrasAt_leads _).trans (.advance _ _), ?_⟩
      refine Sorted.append (extrasAt_aside _) ⟨rfl, rfl, ?_⟩
      exact .inr (.inr (scan_sorts hscan))
  | false =>
    cases form with
    | begin =>
      obtain ⟨hxs, hplace⟩ := readTerminal_begin h
      rw [hplace, hxs]
      exact ⟨extrasAt_leads _, fun x hx => .of_aside (extrasAt_aside _ x hx)⟩
    | newline =>
      obtain ⟨comments, q, hxs, hcomments, hleads, hplace, -⟩ := readTerminal_mark (.inl rfl) h
      rw [hplace, hxs]
      exact ⟨hleads, Sorted.append hcomments (hmark _ q)⟩
    | indent =>
      obtain ⟨comments, q, hxs, hcomments, hleads, hplace, -⟩ :=
        readTerminal_mark (.inr (.inl rfl)) h
      rw [hplace, hxs]
      exact ⟨hleads, Sorted.append hcomments (hmark _ q)⟩
    | dedent =>
      obtain ⟨comments, q, hxs, hcomments, hleads, hplace, -⟩ :=
        readTerminal_mark (.inr (.inr rfl)) h
      rw [hplace, hxs]
      exact ⟨hleads, Sorted.append hcomments (hmark _ q)⟩
    | sameLine =>
      obtain ⟨rfl, rfl⟩ := readTerminal_sameLine h
      exact ⟨.refl _, fun x hx => by cases hx⟩
    | finish =>
      simp only [readTerminal] at h
      split at h
      · cases h
        exact ⟨extrasAt_leads _, fun x hx => .of_aside (extrasAt_aside _ x hx)⟩
      · cases h
    | _ => cases hform

end Docsmith.Python
