import Docsmith.Proofs.Grammar.Yields

namespace Docsmith.Grammar

/-!
# Reading deep enough

The reader of a grammar stops at a depth.  A rule that is read from some place goes no deeper than its height and a
fixed number of levels for each byte that is left, as between two tokens there are only so many levels.  So what is
found does not depend on the depth when it is that large.

* `Table.find`: what the reader finds, without the refusals on the way.
* `Rule.idle`: a rule may be read without moving on, and `Table.Progress`: what is asked of a grammar for this.
* `Rule.height`: the levels that a rule goes down before it moves on.
* `Table.find_of_height`: what is found at a depth that is large enough is found at any such depth.
-/

variable {τ ρ μ σ : Type}

/-! ### What is found -/

/-- What a rule finds at a place, with the place behind it. -/
def Table.find (g : Table τ ρ μ σ) : Nat → μ → Rule τ ρ μ → σ → Option (List Node × σ)
  | 0, _, _, _ => none
  | _ + 1, m, .term t, s => (g.lexis.read m t s).toOption
  | depth + 1, m, .call p, s => g.find depth m (g.rule p) s
  | _ + 1, _, .empty, s => some ([], s)
  | depth + 1, m, .seq a b, s =>
    (g.find depth m a s).bind fun x => (g.find depth m b x.2).map fun y => (x.1 ++ y.1, y.2)
  | depth + 1, m, .alt a b, s => (g.find depth m a s).or (g.find depth m b s)
  | depth + 1, m, .many a, s =>
    match g.find depth m a s with
    | none => some ([], s)
    | some x =>
      if g.lexis.offset s < g.lexis.offset x.2 then
        (g.find depth m (.many a) x.2).map fun y => (x.1 ++ y.1, y.2)
      else some ([], s)
  | depth + 1, m, .ahead a, s => (g.find depth m a s).map fun _ => ([], s)
  | depth + 1, m, .avoid a, s => if (g.find depth m a s).isSome then none else some ([], s)
  | depth + 1, m, .node kind a, s => (g.find depth m a s).map fun x => (wrap kind x.1, x.2)
  | depth + 1, m, .group kind a, s => (g.find depth m a s).map fun x => (gather kind x.1, x.2)
  | depth + 1, m, .role name a, s => (g.find depth m a s).map fun x => (assign name x.1, x.2)
  | depth + 1, m, .within change a, s => g.find depth (change m) a s

namespace Table

variable {g : Table τ ρ μ σ}

/-- The reader finds what is found. -/
theorem parsed?_read (depth : Nat) (m : μ) (a : Rule τ ρ μ) (s : σ) (r : Reach) :
    (g.read depth m a s r).parsed? = g.find depth m a s := by
  -- the reading keeps the farthest place besides the result, and nothing it returns depends on that place
  induction depth generalizing m a s r with
  | zero => rfl
  | succ depth ih =>
    cases a with
    | term t => rw [read, find]; cases g.lexis.read m t s <;> rfl
    | call p => exact ih ..
    | empty => rfl
    | seq a b =>
      rw [read, find, ← ih m a s r]
      rcases g.read depth m a s r with ⟨r', _ | ⟨xs, s'⟩⟩
      · rfl
      · simp only [Option.bind_some]
        rw [← ih m b s' r']
        rcases g.read depth m b s' r' with ⟨r'', _ | ⟨ys, s''⟩⟩ <;> rfl
    | alt a b =>
      rw [read, find, ← ih m a s r]
      rcases g.read depth m a s r with ⟨r', _ | ⟨xs, s'⟩⟩
      · simp only [Option.none_or]
        exact ih ..
      · rfl
    | many a =>
      rw [read, find, ← ih m a s r]
      rcases g.read depth m a s r with ⟨r', _ | ⟨xs, s'⟩⟩
      · rfl
      -- the repetition reads its own rule again, at one depth less
      · simp only
        split
        · rw [← ih m (.many a) s' r']
          rcases g.read depth m (.many a) s' r' with ⟨r'', _ | ⟨ys, s''⟩⟩ <;> rfl
        · rfl
    | within change a => exact ih ..
    | _ =>
      rename_i a
      rw [read, find, ← ih m a s r]
      rcases g.read depth m a s r with ⟨r', _ | ⟨xs, s'⟩⟩ <;> rfl

/-- What is found is yielded. -/
theorem yields_of_find {depth : Nat} {m : μ} {a : Rule τ ρ μ} {s : σ} {x : List Node × σ}
    (h : g.find depth m a s = some x) : g.Yields m a s x.1 x.2 :=
  yields_of_read ((parsed?_read depth m a s {}).trans h)

end Table

/-! ### Rules that move on -/

/-- Whether a rule may be read without moving on, when the terminals and productions that may are known. -/
def Rule.idle (leaf : τ → Bool) (idles : ρ → Bool) : Rule τ ρ μ → Bool
  | .term t => leaf t
  | .call p => idles p
  | .empty => true
  | .seq a b => a.idle leaf idles && b.idle leaf idles
  | .alt a b => a.idle leaf idles || b.idle leaf idles
  | .many _ => true
  | .ahead _ => true
  | .avoid _ => true
  | .node _ a => a.idle leaf idles
  | .group _ a => a.idle leaf idles
  | .role _ a => a.idle leaf idles
  | .within _ a => a.idle leaf idles

/-- What a grammar needs for its rules to move on: reading a terminal leaves no more bytes than there were, and fewer
    when it moves on; and the productions that may idle are known. -/
structure Table.Progress (g : Table τ ρ μ σ) (left : σ → Nat) (leaf : τ → Bool) (idles : ρ → Bool) : Prop where
  conserves : ∀ {m t s xs s'}, g.lexis.read m t s = .ok (xs, s') →
    g.lexis.offset s' + left s' = g.lexis.offset s + left s ∧ left s' ≤ left s
  moves : ∀ {m t s xs s'}, g.lexis.read m t s = .ok (xs, s') → leaf t = false → left s' < left s
  idles : ∀ p, (g.rule p).idle leaf idles = true → idles p = true

section Progress

variable {g : Table τ ρ μ σ} {left : σ → Nat} {leaf : τ → Bool} {idles : ρ → Bool}

/-- A rule leaves no more than there was, and fewer bytes if it does not idle. -/
theorem Table.Progress.of_yields (hg : g.Progress left leaf idles) {m : μ} {a : Rule τ ρ μ} {s s' : σ}
    {xs : List Node} (h : g.Yields m a s xs s') :
    g.lexis.offset s' + left s' = g.lexis.offset s + left s ∧ left s' ≤ left s ∧
      (a.idle leaf idles = false → left s' < left s) := by
  -- induction on the yield; offset and rest keep their sum in every case, so only the strictness is split
  induction h with
  | term h => exact ⟨(hg.conserves h).1, (hg.conserves h).2, hg.moves h⟩
  | @call _ p _ _ _ _ ih =>
    refine ⟨ih.1, ih.2.1, fun hidle => ih.2.2 ?_⟩
    rw [← Bool.not_eq_true]
    exact fun hrule => by simp [Rule.idle, hg.idles p hrule] at hidle
  | empty => exact ⟨rfl, Nat.le_refl _, fun hidle => by cases hidle⟩
  | seq _ _ ih ih' =>
    refine ⟨ih'.1.trans ih.1, Nat.le_trans ih'.2.1 ih.2.1, fun hidle => ?_⟩
    rw [Rule.idle, Bool.and_eq_false_iff] at hidle
    -- a sequence moves when one of its two parts does
    rcases hidle with hidle | hidle
    · exact Nat.lt_of_le_of_lt ih'.2.1 (ih.2.2 hidle)
    · exact Nat.lt_of_lt_of_le (ih'.2.2 hidle) ih.2.1
  | left _ ih => exact ⟨ih.1, ih.2.1, fun hidle => ih.2.2 (Bool.or_eq_false_iff.mp hidle).1⟩
  | right _ ih => exact ⟨ih.1, ih.2.1, fun hidle => ih.2.2 (Bool.or_eq_false_iff.mp hidle).2⟩
  | stop => exact ⟨rfl, Nat.le_refl _, fun hidle => by cases hidle⟩
  | more _ _ ih ih' =>
    exact ⟨ih'.1.trans ih.1, Nat.le_trans ih'.2.1 ih.2.1, fun hidle => by cases hidle⟩
  | ahead => exact ⟨rfl, Nat.le_refl _, fun hidle => by cases hidle⟩
  | avoid => exact ⟨rfl, Nat.le_refl _, fun hidle => by cases hidle⟩
  | node _ ih => exact ih
  | group _ ih => exact ih
  | role _ ih => exact ih
  | within _ ih => exact ih

end Progress

/-! ### Depth -/

/-- The levels that a rule goes down before it moves on, when a number of levels is granted for each byte and the
    heights of the productions are known. -/
def Rule.height (leaf : τ → Bool) (idles : ρ → Bool) (grant : Nat) (heights : ρ → Nat) : Rule τ ρ μ → Nat
  | .term _ => 1
  | .call p => heights p + 1
  | .empty => 1
  | .seq a b =>
    max (a.height leaf idles grant heights) (if a.idle leaf idles then b.height leaf idles grant heights
      else b.height leaf idles grant heights - grant) + 1
  | .alt a b => max (a.height leaf idles grant heights) (b.height leaf idles grant heights) + 1
  | .many a => a.height leaf idles grant heights + 1
  | .ahead a => a.height leaf idles grant heights + 1
  | .avoid a => a.height leaf idles grant heights + 1
  | .node _ a => a.height leaf idles grant heights + 1
  | .group _ a => a.height leaf idles grant heights + 1
  | .role _ a => a.height leaf idles grant heights + 1
  | .within _ a => a.height leaf idles grant heights + 1

/-- **What is found at a depth that is large enough is found at any such depth**: at the height of the rule, with some
    levels more for each byte that is left. -/
theorem Table.find_of_height {g : Table τ ρ μ σ} {left : σ → Nat} {leaf : τ → Bool} {idles : ρ → Bool}
    (hg : g.Progress left leaf idles) {grant : Nat} {heights : ρ → Nat} (hgrant : 0 < grant)
    (hheights : ∀ p, (g.rule p).height leaf idles grant heights ≤ heights p)
    {depth depth' : Nat} {m : μ} {a : Rule τ ρ μ} {s : σ}
    (h : a.height leaf idles grant heights + grant * left s ≤ depth)
    (h' : a.height leaf idles grant heights + grant * left s ≤ depth') :
    g.find depth m a s = g.find depth' m a s := by
  -- what is read behind a rule that moves on has the levels of one byte to spare
  have hspare {s s' : σ} (hlt : left s' < left s) : grant * left s' + grant ≤ grant * left s := by
    rw [← Nat.mul_succ]
    exact Nat.mul_le_mul_left grant hlt
  induction depth generalizing depth' m a s with
  | zero =>
    have hpos : 0 < a.height leaf idles grant heights := by cases a <;> simp [Rule.height]
    omega
  | succ depth ih =>
    cases depth' with
    | zero =>
      have hpos : 0 < a.height leaf idles grant heights := by cases a <;> simp [Rule.height]
      omega
    | succ depth' =>
      cases a with
      | term t => rfl
      | call p =>
        have hp := hheights p
        simp only [Rule.height] at h h'
        exact ih (by omega) (by omega)
      | empty => rfl
      | seq a b =>
        simp only [Rule.height] at h h'
        have hsame : g.find depth m a s = g.find depth' m a s := ih (by omega) (by omega)
        rw [find, find, hsame]
        cases hfirst : g.find depth' m a s with
        | none => rfl
        | some x =>
          obtain ⟨-, hle, hlt⟩ := hg.of_yields (yields_of_find hfirst)
          have hmul := Nat.mul_le_mul_left grant hle
          simp only [Option.bind_some]
          cases hidle : a.idle leaf idles with
          | true =>
            simp only [hidle, if_true] at h h'
            have hrest : g.find depth m b x.2 = g.find depth' m b x.2 := ih (by omega) (by omega)
            rw [hrest]
          | false =>
            have hroom := hspare (hlt hidle)
            simp only [hidle, Bool.false_eq_true, if_false] at h h'
            have hrest : g.find depth m b x.2 = g.find depth' m b x.2 := ih (by omega) (by omega)
            rw [hrest]
      | alt a b =>
        simp only [Rule.height] at h h'
        have hfirst : g.find depth m a s = g.find depth' m a s := ih (by omega) (by omega)
        have hother : g.find depth m b s = g.find depth' m b s := ih (by omega) (by omega)
        rw [find, find, hfirst, hother]
      | many a =>
        have hmany : (Rule.many a).height leaf idles grant heights = a.height leaf idles grant heights + 1 := rfl
        rw [hmany] at h h'
        have hsame : g.find depth m a s = g.find depth' m a s := ih (by omega) (by omega)
        rw [find, find, hsame]
        cases hfirst : g.find depth' m a s with
        | none => rfl
        | some x =>
          simp only
          split
          · rename_i hoffset
            have hkeep := (hg.of_yields (yields_of_find hfirst)).1
            have hroom : grant * left x.2 + grant ≤ grant * left s := hspare (by omega)
            have hrest : g.find depth m (.many a) x.2 = g.find depth' m (.many a) x.2 := ih (by omega) (by omega)
            rw [hrest]
          · rfl
      | within change a =>
        simp only [Rule.height] at h h'
        exact ih (by omega) (by omega)
      | _ =>
        rename_i a
        simp only [Rule.height] at h h'
        have hsame : g.find depth m a s = g.find depth' m a s := ih (by omega) (by omega)
        rw [find, find, hsame]

end Docsmith.Grammar
