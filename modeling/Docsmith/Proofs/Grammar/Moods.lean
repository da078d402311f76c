import Docsmith.Proofs.Grammar.Depth
import Docsmith.Proofs.Grammar.Lined
import Mathlib.Data.Finset.Union
import Mathlib.Data.List.TakeWhile

namespace Docsmith.Grammar

/-!
# Moods of a reader

What a terminal sees of the white space before it may depend on what was read before: on the mood of the reader.  A
check of the grammar follows the moods from terminal to terminal and makes sure that each is only tried in moods that
suit it.  Then two readers that go through two sources in step stay in step: both of them find something or neither
does.

* `Moods`: the moods behind a terminal, and those before and behind the productions.
* `Moods.flow?`: the moods behind a rule, and `Moods.Consistent`: a grammar keeps to the tables of its productions.
* `Table.Yields.flow`: what a rule yields ends in one of those moods.
* `Fronted`, `Table.Yields.front`: where the first code begins that a rule yields.
* `Table.Twins`: two readers are in step at the terminals, and `Table.Twins.find`: then they are at every rule.
-/

/-- The moods behind a terminal that is tried in a mood, if it may be, and the moods before and behind each
    production. -/
structure Moods (τ ρ μ κ : Type) where
  next : μ → τ → κ → Option (Finset κ)
  enter : μ → ρ → Finset κ
  leave : μ → ρ → Finset κ

variable {τ ρ μ σ κ : Type}

section Flow

variable [DecidableEq κ]

/-- The moods behind a rule that is tried in some moods.  There are none if a terminal is tried in a mood in which it
    may not be, or if a construct is of a kind that is none of code. -/
def Moods.flow? (w : Moods τ ρ μ κ) : μ → Finset κ → Rule τ ρ μ → Option (Finset κ)
  | m, ks, .term t =>
    if ∀ k ∈ ks, (w.next m t k).isSome then some (ks.biUnion fun k => (w.next m t k).getD ∅) else none
  | m, ks, .call p => if ks ⊆ w.enter m p then some (w.leave m p) else none
  | _, ks, .empty => some ks
  | m, ks, .seq a b => (w.flow? m ks a).bind fun ks => w.flow? m ks b
  | m, ks, .alt a b => (w.flow? m ks a).bind fun ks₁ => (w.flow? m ks b).map (ks₁ ∪ ·)
  | m, ks, .many a =>
    -- the moods before a further round are those before the first one and behind it
    (w.flow? m ks a).bind fun more => (w.flow? m (ks ∪ more) a).bind fun again =>
      if again ⊆ ks ∪ more then some (ks ∪ more) else none
  | m, ks, .ahead a => (w.flow? m ks a).map fun _ => ks
  | m, ks, .avoid a => (w.flow? m ks a).map fun _ => ks
  | m, ks, .node kind a => if isCodeKind kind then w.flow? m ks a else none
  | m, ks, .group kind a => if isCodeKind kind then w.flow? m ks a else none
  | m, ks, .role _ a => w.flow? m ks a
  | m, ks, .within change a => w.flow? (change m) ks a

/-- The rule of each production leads from the moods before it to those behind it. -/
def Moods.Consistent (w : Moods τ ρ μ κ) (g : Table τ ρ μ σ) : Prop :=
  ∀ m p, (w.flow? m (w.enter m p) (g.rule p)).any (fun out => decide (out ⊆ w.leave m p)) = true

variable {w : Moods τ ρ μ κ} {g : Table τ ρ μ σ} {m : μ} {a b : Rule τ ρ μ} {ks out : Finset κ} {s s' : σ}

namespace Moods

theorem Consistent.rule (hw : w.Consistent g) (m : μ) (p : ρ) :
    ∃ out, w.flow? m (w.enter m p) (g.rule p) = some out ∧ out ⊆ w.leave m p := by
  obtain ⟨out, hout, hsub⟩ := (Option.any_eq_true _ _).mp (hw m p)
  exact ⟨out, hout, of_decide_eq_true hsub⟩

theorem flow?_term {t : τ} {k : κ} (h : w.flow? m ks (.term t) = some out) (hk : k ∈ ks) :
    ∃ next, w.next m t k = some next ∧ next ⊆ out := by
  rw [flow?] at h
  split at h
  · rename_i hall
    cases h
    obtain ⟨next, hnext⟩ := Option.isSome_iff_exists.mp (hall k hk)
    refine ⟨next, hnext, fun k' hk' => Finset.mem_biUnion.mpr ⟨k, hk, ?_⟩⟩
    rw [hnext]
    exact hk'
  · cases h

theorem flow?_call {p : ρ} (h : w.flow? m ks (.call p) = some out) : ks ⊆ w.enter m p ∧ out = w.leave m p := by
  rw [flow?] at h
  split at h
  · exact ⟨‹_›, (Option.some.inj h).symm⟩
  · cases h

theorem flow?_seq (h : w.flow? m ks (.seq a b) = some out) :
    ∃ mid, w.flow? m ks a = some mid ∧ w.flow? m mid b = some out := Option.bind_eq_some_iff.mp h

theorem flow?_alt (h : w.flow? m ks (.alt a b) = some out) :
    ∃ left right, w.flow? m ks a = some left ∧ w.flow? m ks b = some right ∧ out = left ∪ right := by
  obtain ⟨left, hleft, h⟩ := Option.bind_eq_some_iff.mp h
  obtain ⟨right, hright, rfl⟩ := Option.map_eq_some_iff.mp h
  exact ⟨left, right, hleft, hright, rfl⟩

/-- The moods behind a repetition are those before it and others, behind which the repetition goes on in these
    moods. -/
theorem flow?_many (h : w.flow? m ks (.many a) = some out) : ks ⊆ out ∧
    (∃ first, w.flow? m ks a = some first ∧ first ⊆ out) ∧ w.flow? m out (.many a) = some out := by
  obtain ⟨more, hmore, h⟩ := Option.bind_eq_some_iff.mp h
  obtain ⟨again, hagain, h⟩ := Option.bind_eq_some_iff.mp h
  split at h
  · rename_i hsub
    cases h
    refine ⟨Finset.subset_union_left, ⟨more, hmore, Finset.subset_union_right⟩, ?_⟩
    rw [flow?, hagain, Option.bind_some, Finset.union_eq_left.mpr hsub, hagain, Option.bind_some, if_pos hsub]
  · cases h

theorem flow?_node {kind : String} (h : w.flow? m ks (.node kind a) = some out) :
    isCodeKind kind = true ∧ w.flow? m ks a = some out := by
  rw [flow?] at h
  split at h
  · exact ⟨‹_›, h⟩
  · cases h

theorem flow?_group {kind : String} (h : w.flow? m ks (.group kind a) = some out) :
    isCodeKind kind = true ∧ w.flow? m ks a = some out := by
  rw [flow?] at h
  split at h
  · exact ⟨‹_›, h⟩
  · cases h

end Moods

/-! ### Moods of what is yielded -/

/-- **What a rule yields ends in one of the moods behind the rule**, if terminals do. -/
theorem Table.Yields.flow (hw : w.Consistent g) {mood : κ → σ → Prop}
    (hleaf : ∀ {m t k next s xs s'}, g.lexis.read m t s = .ok (xs, s') → w.next m t k = some next → mood k s →
      ∃ k' ∈ next, mood k' s')
    {xs : List Node} (h : g.Yields m a s xs s') (hflow : w.flow? m ks a = some out)
    (hs : ∃ k ∈ ks, mood k s) : ∃ k ∈ out, mood k s' := by
  -- the moods of a rule are read off its parts, so the induction follows the yield clause by clause
  induction h generalizing ks out with
  | term h =>
    obtain ⟨k, hk, hmood⟩ := hs
    obtain ⟨next, hnext, hsub⟩ := Moods.flow?_term hflow hk
    obtain ⟨k', hk', hmood'⟩ := hleaf h hnext hmood
    exact ⟨k', hsub hk', hmood'⟩
  -- a production was checked with its own set of moods, which the call's moods are part of
  | @call m p _ _ _ _ ih =>
    obtain ⟨hsub, rfl⟩ := Moods.flow?_call hflow
    obtain ⟨inner, hinner, hsub'⟩ := hw.rule m p
    obtain ⟨k, hk, hmood⟩ := ih hinner (hs.imp fun k hk => ⟨hsub hk.1, hk.2⟩)
    exact ⟨k, hsub' hk, hmood⟩
  | empty => cases hflow; exact hs
  | seq _ _ ih ih' =>
    obtain ⟨mid, hfirst, hsecond⟩ := Moods.flow?_seq hflow
    exact ih' hsecond (ih hfirst hs)
  | left _ ih =>
    obtain ⟨left, right, hleft, -, rfl⟩ := Moods.flow?_alt hflow
    obtain ⟨k, hk, hmood⟩ := ih hleft hs
    exact ⟨k, Finset.mem_union_left _ hk, hmood⟩
  | right _ ih =>
    obtain ⟨left, right, -, hright, rfl⟩ := Moods.flow?_alt hflow
    obtain ⟨k, hk, hmood⟩ := ih hright hs
    exact ⟨k, Finset.mem_union_right _ hk, hmood⟩
  | stop => exact hs.imp fun k hk => ⟨(Moods.flow?_many hflow).1 hk.1, hk.2⟩
  -- the moods after one turn of a repetition are moods it may begin the next turn with
  | more _ _ ih ih' =>
    obtain ⟨-, ⟨first, hfirst, hsub⟩, hrest⟩ := Moods.flow?_many hflow
    exact ih' hrest ((ih hfirst hs).imp fun k hk => ⟨hsub hk.1, hk.2⟩)
  -- looking ahead reads nothing, so the moods before it are the moods after it
  | ahead => obtain ⟨_, -, rfl⟩ := Option.map_eq_some_iff.mp hflow; exact hs
  | avoid => obtain ⟨_, -, rfl⟩ := Option.map_eq_some_iff.mp hflow; exact hs
  | node _ ih => exact ih (Moods.flow?_node hflow).2 hs
  | group _ ih => exact ih (Moods.flow?_group hflow).2 hs
  | role _ ih => exact ih hflow hs
  | within _ ih => exact ih hflow hs

end Flow

/-! ### Where the first code begins -/

/-- Some nodes that are read by a reader in some state: there is code among them, and the first one begins at an offset
    of some sort, or the reader is in such a state again. -/
def Fronted (ready : σ → Prop) (P : Nat → Prop) (xs : List Node) (s : σ) : Prop :=
  match xs.dropWhile isExtra with
  | [] => ready s
  | first :: _ => P first.start

section Front

variable {g : Table τ ρ μ σ} {ad : Admitted τ ρ μ} {ready : σ → Prop} {P : Nat → Prop} {m : μ} {r : Rule τ ρ μ}
  {s s' : σ} {xs ys : List Node}

theorem Fronted.of_extras (h : ∀ x ∈ xs, isExtra x = true) (hs : ready s) : Fronted ready P xs s := by
  rw [Fronted, List.dropWhile_eq_nil_iff.mpr h]
  exact hs

theorem Fronted.append (h : Fronted ready P xs s) (h' : ready s → Fronted ready P ys s') :
    Fronted ready P (xs ++ ys) s' := by
  unfold Fronted at h
  split at h
  · rename_i hnone
    have hextras := List.dropWhile_eq_nil_iff.mp hnone
    rw [Fronted, List.dropWhile_append_of_pos hextras]
    exact h' h
  · rename_i first rest hfirst
    rw [Fronted, List.dropWhile_append, hfirst]
    exact h

theorem Fronted.wrap (h : Fronted ready P xs s) {kind : String} (hkind : isCodeKind kind = true) :
    Fronted ready P (Grammar.wrap kind xs) s := by
  rw [wrap_eq]
  unfold Fronted at h
  cases hdrop : xs.dropWhile isExtra with
  | nil =>
    rw [hdrop] at h
    exact .of_extras (List.dropWhile_eq_nil_iff.mp hdrop) h
  | cons first rest =>
    have hcode := (isExtra_of_isCodeKind (n := covering kind first rest) hkind).1
    rw [hdrop] at h
    rw [Fronted, List.dropWhile_append_of_pos fun x hx => List.all_eq_true.mp (List.all_takeWhile ..) x hx,
      List.dropWhile_cons_of_neg (by simp [hcode])]
    exact h

theorem Fronted.assign (h : Fronted ready P xs s) (role : String) :
    Fronted ready P (Grammar.assign role xs) s := by
  -- a role never changes what counts as a comment, so the front is cut at the same node
  have hextra (n : Node) : isExtra (if isExtra n || isMark n then n else n.withRole role) = isExtra n := by
    split <;> simp
  unfold Fronted at h ⊢
  rw [Grammar.assign, List.dropWhile_map, Function.comp_def]
  simp only [hextra]
  split at h
  · rename_i hnone
    rw [hnone]
    exact h
  -- the first part may get the role; where it starts stays the same
  · rename_i first rest hfirst
    rw [hfirst, List.map_cons]
    dsimp only
    split
    · exact h
    · cases first
      exact h

/-- **The first code that a rule yields begins at an offset of some sort**, if that of terminals does. -/
theorem Table.Yields.front (hkinds : ∀ kind r, ad.construct kind r → isCodeKind kind = true)
    (htable : ∀ p, ad.Covers (g.rule p))
    (hleaf : ∀ {m t s xs s'}, g.lexis.read m t s = .ok (xs, s') → ad.terminal t → ready s → Fronted ready P xs s')
    (h : g.Yields m r s xs s') (hr : ad.Covers r) (hs : ready s) : Fronted ready P xs s' := by
  -- the parts that read nothing leave the state ready as it was
  have hnone {s : σ} (hs : ready s) : Fronted ready P [] s := .of_extras (List.forall_mem_nil _) hs
  -- induction on the yield: a front is made by a terminal, and only joined or wrapped from there on
  induction h with
  | term h => exact hleaf h (hr.terminals _ List.mem_cons_self) hs
  | call _ ih => exact ih (htable _) hs
  | empty => exact hnone hs
  | seq _ _ ih ih' =>
    exact (ih (hr.part (List.subset_append_left _ _) (List.subset_append_left _ _)) hs).append
      (ih' (hr.part (List.subset_append_right _ _) (List.subset_append_right _ _)))
  | left _ ih => exact ih (hr.part (List.subset_append_left _ _) (List.subset_append_left _ _)) hs
  | right _ ih => exact ih (hr.part (List.subset_append_right _ _) (List.subset_append_right _ _)) hs
  | stop => exact hnone hs
  | more _ _ ih ih' => exact (ih (hr.part (fun _ h => h) fun _ h => h) hs).append (ih' hr)
  | ahead => exact hnone hs
  | avoid => exact hnone hs
  | node _ ih =>
    exact (ih (hr.part (fun _ h => h) (List.subset_cons_self _ _)) hs).wrap
      (hkinds _ _ (hr.constructs _ List.mem_cons_self))
  | @group _ kind _ _ xs _ _ ih =>
    have hinner := ih (hr.part (fun _ h => h) (List.subset_cons_self _ _)) hs
    rcases gather_cases kind xs with hgather | hgather
    · rw [hgather]; exact hinner
    · rw [hgather]; exact hinner.wrap (hkinds _ _ (hr.constructs _ List.mem_cons_self))
  | role _ ih => exact (ih (hr.part (fun _ h => h) fun _ h => h) hs).assign _
  | within _ ih => exact ih (hr.part (fun _ h => h) fun _ h => h) hs

end Front

/-! ### Two readers in step -/

variable {w : Moods τ ρ μ κ} {g : Table τ ρ μ σ} {m : μ} {a b : Rule τ ρ μ} {ks out : Finset κ} {s s' : σ}

/-- Two readers move on together or stay where they are. -/
def Table.Keeps (g : Table τ ρ μ σ) (s s₁ s' s₁' : σ) : Prop :=
  g.lexis.offset s = g.lexis.offset s₁ ∧ g.lexis.offset s' = g.lexis.offset s₁' ∨
    g.lexis.offset s < g.lexis.offset s₁ ∧ g.lexis.offset s' < g.lexis.offset s₁'

/-- Two readers find nothing, or both find nodes that stand for one another, move on together, and are in step again
    in one of some moods. -/
inductive Table.Level (g : Table τ ρ μ σ) (step : κ → σ → σ → Prop) (alike : List Node → List Node → Prop)
    (ks : Finset κ) (s s' : σ) : Option (List Node × σ) → Option (List Node × σ) → Prop
  | refused : g.Level step alike ks s s' none none
  | read {xs ys : List Node} {s₁ s₁' : σ} (hnodes : alike xs ys) (hstep : ∃ k ∈ ks, step k s₁ s₁')
      (hkeeps : g.Keeps s s₁ s' s₁') : g.Level step alike ks s s' (some (xs, s₁)) (some (ys, s₁'))

/-- Two readers are in step: when they are so before a terminal that may be tried, they are so behind it, and nodes
    that stand for one another do so when they are made one. -/
structure Table.Twins (g : Table τ ρ μ σ) (w : Moods τ ρ μ κ) (step : κ → σ → σ → Prop)
    (alike : List Node → List Node → Prop) : Prop where
  nil : alike [] []
  append : ∀ {xs xs' ys ys'}, alike xs xs' → alike ys ys' → alike (xs ++ ys) (xs' ++ ys')
  wrap : ∀ {kind xs xs'}, isCodeKind kind = true → alike xs xs' → alike (wrap kind xs) (wrap kind xs')
  gather : ∀ {kind xs xs'}, isCodeKind kind = true → alike xs xs' → alike (gather kind xs) (gather kind xs')
  assign : ∀ {role xs xs'}, alike xs xs' → alike (assign role xs) (assign role xs')
  leaf : ∀ {m t k next s s'}, w.next m t k = some next → step k s s' →
    g.Level step alike next s s' (g.lexis.read m t s).toOption (g.lexis.read m t s').toOption

namespace Table

variable {step : κ → σ → σ → Prop} {alike : List Node → List Node → Prop} {s₁ s₂ s₁' s₂' : σ}
  {x? y? : Option (List Node × σ)}

theorem Keeps.refl (s s' : σ) : g.Keeps s s s' s' := .inl ⟨rfl, rfl⟩

theorem Keeps.trans (h : g.Keeps s s₁ s' s₁') (h' : g.Keeps s₁ s₂ s₁' s₂') : g.Keeps s s₂ s' s₂' := by
  unfold Keeps at *
  omega

theorem Level.mono (h : g.Level step alike ks s s' x? y?) (hsub : ks ⊆ out) :
    g.Level step alike out s s' x? y? := by
  cases h with
  | refused => exact .refused
  | read hnodes hstep hkeeps => exact .read hnodes (hstep.imp fun k hk => ⟨hsub hk.1, hk.2⟩) hkeeps

theorem Level.cases (h : g.Level step alike ks s s' x? y?) : x? = none ∧ y? = none ∨
    ∃ xs s₁ ys s₁', x? = some (xs, s₁) ∧ y? = some (ys, s₁') ∧ alike xs ys ∧ (∃ k ∈ ks, step k s₁ s₁') ∧
      g.Keeps s s₁ s' s₁' := by
  cases h with
  | refused => exact .inl ⟨rfl, rfl⟩
  | read hnodes hstep hkeeps => exact .inr ⟨_, _, _, _, rfl, rfl, hnodes, hstep, hkeeps⟩

/-- Nodes that are made one in both sources. -/
theorem Level.map (h : g.Level step alike ks s s' x? y?) {f : List Node → List Node}
    (hf : ∀ {xs ys}, alike xs ys → alike (f xs) (f ys)) :
    g.Level step alike ks s s' (x?.map fun x => (f x.1, x.2)) (y?.map fun y => (f y.1, y.2)) := by
  cases h with
  | refused => exact .refused
  | read hnodes hstep hkeeps => exact .read (hf hnodes) hstep hkeeps

/-- What is read in step behind what was read in step. -/
theorem Level.behind {xs ys : List Node} (hg : g.Twins w step alike)
    (h : g.Level step alike ks s₁ s₁' x? y?) (hnodes : alike xs ys) (hkeeps : g.Keeps s s₁ s' s₁') :
    g.Level step alike ks s s' (x?.map fun x => (xs ++ x.1, x.2)) (y?.map fun y => (ys ++ y.1, y.2)) := by
  cases h with
  | refused => exact .refused
  | read hnodes' hstep' hkeeps' => exact .read (hg.append hnodes hnodes') hstep' (hkeeps.trans hkeeps')

/-- **Readers that are in step at the terminals are so at every rule** that keeps to its moods. -/
theorem Twins.find [DecidableEq κ] (hg : g.Twins w step alike) (hw : w.Consistent g) (depth : Nat) {k : κ}
    (hflow : w.flow? m ks a = some out) (hk : k ∈ ks) (hs : step k s s') :
    g.Level step alike out s s' (g.find depth m a s) (g.find depth m a s') := by
  induction depth generalizing m a ks out k s s' with
  | zero => exact .refused
  -- a depth of zero refuses on both sides; below it the two readings take the same branch
  | succ depth ih =>
    cases a with
    | term t =>
      obtain ⟨next, hnext, hsub⟩ := Moods.flow?_term hflow hk
      exact (hg.leaf hnext hs).mono hsub
    | call p =>
      obtain ⟨hsub, rfl⟩ := Moods.flow?_call hflow
      obtain ⟨inner, hinner, hsub'⟩ := hw.rule m p
      exact (ih hinner (hsub hk) hs).mono hsub'
    | empty =>
      cases hflow
      exact .read hg.nil ⟨k, hk, hs⟩ (.refl _ _)
    | seq a b =>
      obtain ⟨mid, hfirst, hsecond⟩ := Moods.flow?_seq hflow
      rw [Table.find, Table.find]
      -- the first part refuses in both texts or is read in both, and then the second starts in step
      obtain ⟨hx, hy⟩ | ⟨xs, s₁, ys, s₁', hx, hy, hnodes, ⟨k', hk', hs'⟩, hkeeps⟩ := (ih hfirst hk hs).cases
      · rw [hx, hy]
        exact .refused
      · rw [hx, hy]
        exact (ih hsecond hk' hs').behind hg hnodes hkeeps
    | alt a b =>
      -- the alternative is decided by its left side, which fares alike in the two texts
      obtain ⟨left, right, hleft, hright, rfl⟩ := Moods.flow?_alt hflow
      rw [Table.find, Table.find]
      obtain ⟨hx, hy⟩ | ⟨xs, s₁, ys, s₁', hx, hy, hnodes, ⟨k', hk', hs'⟩, hkeeps⟩ := (ih hleft hk hs).cases
      · rw [hx, hy, Option.none_or, Option.none_or]
        exact (ih hright hk hs).mono Finset.subset_union_right
      · rw [hx, hy]
        exact .read hnodes ⟨k', Finset.mem_union_left _ hk', hs'⟩ hkeeps
    | many a =>
      obtain ⟨hsub, ⟨first, hfirst, hsub'⟩, hrest⟩ := Moods.flow?_many hflow
      have hstop : g.Level step alike out s s' (some ([], s)) (some ([], s')) :=
        .read hg.nil ⟨k, hsub hk, hs⟩ (.refl _ _)
      rw [Table.find, Table.find]
      obtain ⟨hx, hy⟩ | ⟨xs, s₁, ys, s₁', hx, hy, hnodes, ⟨k', hk', hs'⟩, hkeeps⟩ := (ih hfirst hk hs).cases
      · rw [hx, hy]
        exact hstop
      · rw [hx, hy]
        dsimp only
        -- the repetition stops when a turn did not move; both sides move, or neither does
        rcases hkeeps with ⟨hsame, hsame'⟩ | ⟨hlt, hlt'⟩
        · rw [if_neg (by omega), if_neg (by omega)]
          exact hstop
        · rw [if_pos hlt, if_pos hlt']
          exact (ih hrest (hsub' hk') hs').behind hg hnodes (.inr ⟨hlt, hlt'⟩)
    | ahead a =>
      obtain ⟨inner, hinner, rfl⟩ := Option.map_eq_some_iff.mp hflow
      rw [Table.find, Table.find]
      -- looking ahead reads in both texts or in none, and gives back no node
      obtain ⟨hx, hy⟩ | ⟨xs, s₁, ys, s₁', hx, hy, -⟩ := (ih hinner hk hs).cases
      · rw [hx, hy]
        exact .refused
      · rw [hx, hy]
        exact .read hg.nil ⟨k, hk, hs⟩ (.refl _ _)
    | avoid a =>
      obtain ⟨inner, hinner, rfl⟩ := Option.map_eq_some_iff.mp hflow
      rw [Table.find, Table.find]
      obtain ⟨hx, hy⟩ | ⟨xs, s₁, ys, s₁', hx, hy, -⟩ := (ih hinner hk hs).cases
      · rw [hx, hy]
        exact .read hg.nil ⟨k, hk, hs⟩ (.refl _ _)
      · rw [hx, hy]
        exact .refused
    | node kind a =>
      obtain ⟨hkind, hinner⟩ := Moods.flow?_node hflow
      exact (ih hinner hk hs).map (hg.wrap hkind)
    | group kind a =>
      obtain ⟨hkind, hinner⟩ := Moods.flow?_group hflow
      exact (ih hinner hk hs).map (hg.gather hkind)
    | role name a => exact (ih (a := a) hflow hk hs).map hg.assign
    | within change a => exact ih (a := a) hflow hk hs

end Table

end Docsmith.Grammar
