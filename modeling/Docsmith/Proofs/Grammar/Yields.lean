import Docsmith.Grammar.Read
import Docsmith.Proofs.Tree.Siblings

namespace Docsmith.Grammar

/-!
# What a rule yields

Whatever is true of the nodes of a source because of its grammar is shown by an induction over the
way in which they were read.  What was tried in vain on the way does not matter for this.

* `Table.Yields`: a rule leads from one state to another and yields some nodes.
* `Table.yields_of_read`: what the reader finds is yielded.
* `Made`: what a construct is made of, and `isCodeKind`: the kinds of nodes that are part of it.
* `Table.emits`: a check that all nodes a rule yields are of certain sorts, and
  `Table.Yields.of_emits`: it does what it says.
* `Table.Origin`, `Table.Yields.origin`: every node is a terminal or a construct of the grammar.
-/

variable {τ ρ μ σ : Type}

/-- A rule leads from one state to another and yields some nodes. -/
inductive Table.Yields (g : Table τ ρ μ σ) : μ → Rule τ ρ μ → σ → List Node → σ → Prop where
  | term {m t s xs s'} (h : g.lexis.read m t s = .ok (xs, s')) : g.Yields m (.term t) s xs s'
  | call {m p s xs s'} (h : g.Yields m (g.rule p) s xs s') : g.Yields m (.call p) s xs s'
  | empty {m s} : g.Yields m .empty s [] s
  | seq {m a b s xs s' ys s''} (h : g.Yields m a s xs s') (h' : g.Yields m b s' ys s'') :
      g.Yields m (.seq a b) s (xs ++ ys) s''
  | left {m a b s xs s'} (h : g.Yields m a s xs s') : g.Yields m (.alt a b) s xs s'
  | right {m a b s xs s'} (h : g.Yields m b s xs s') : g.Yields m (.alt a b) s xs s'
  | stop {m a s} : g.Yields m (.many a) s [] s
  | more {m a s xs s' ys s''} (h : g.Yields m a s xs s')
      (h' : g.Yields m (.many a) s' ys s'') : g.Yields m (.many a) s (xs ++ ys) s''
  | ahead {m a s} : g.Yields m (.ahead a) s [] s
  | avoid {m a s} : g.Yields m (.avoid a) s [] s
  | node {m kind a s xs s'} (h : g.Yields m a s xs s') :
      g.Yields m (.node kind a) s (wrap kind xs) s'
  | group {m kind a s xs s'} (h : g.Yields m a s xs s') :
      g.Yields m (.group kind a) s (gather kind xs) s'
  | role {m name a s xs s'} (h : g.Yields m a s xs s') :
      g.Yields m (.role name a) s (assign name xs) s'
  | within {m change a s xs s'} (h : g.Yields (change m) a s xs s') :
      g.Yields m (.within change a) s xs s'

namespace Table

variable {g : Table τ ρ μ σ}

/-- What the reader finds is yielded. -/
theorem yields_of_read {depth : Nat} {m : μ} {a : Rule τ ρ μ} {s s' : σ} {r : Reach}
    {xs : List Node} (h : (g.read depth m a s r).parsed? = some (xs, s')) :
    g.Yields m a s xs s' := by
  -- induction on the depth, which every branch of the reading lowers by one
  induction depth generalizing m a s s' r xs with
  | zero => cases h
  | succ depth ih =>
    cases a with
    | term t =>
      simp only [read] at h
      split at h
      · cases h; exact .term ‹_›
      · cases h
    | call p => exact .call (ih h)
    | empty => cases h; exact .empty
    | seq a b =>
      simp only [read] at h
      split at h
      · cases h
      · rename_i hfirst
        -- where both parts were read, the yield of the sequence is put together from theirs
        split at h
        · cases h
        · rename_i hsecond
          cases h
          exact .seq (ih (congrArg Outcome.parsed? hfirst)) (ih (congrArg Outcome.parsed? hsecond))
    | alt a b =>
      simp only [read] at h
      split at h
      · rename_i hleft
        cases h
        exact .left (ih (congrArg Outcome.parsed? hleft))
      · exact .right (ih h)
    | many a =>
      simp only [read] at h
      split at h
      · cases h; exact .stop
      · rename_i hfirst
        -- the turn that does not move ends the repetition, and that is a yield of its own
        split at h
        · split at h
          · cases h
          · rename_i hrest
            cases h
            exact .more (ih (congrArg Outcome.parsed? hfirst)) (ih (congrArg Outcome.parsed? hrest))
        · cases h; exact .stop
    | ahead a =>
      simp only [read] at h
      split at h
      · cases h; exact .ahead
      · cases h
    | avoid a =>
      simp only [read] at h
      split at h
      · cases h
      · cases h; exact .avoid
    | node kind a =>
      simp only [read] at h
      split at h
      · cases h
      · rename_i hinner
        cases h
        exact .node (ih (congrArg Outcome.parsed? hinner))
    | group kind a =>
      simp only [read] at h
      split at h
      · cases h
      · rename_i hinner
        cases h
        exact .group (ih (congrArg Outcome.parsed? hinner))
    | role name a =>
      simp only [read] at h
      split at h
      · cases h
      · rename_i hinner
        cases h
        exact .role (ih (congrArg Outcome.parsed? hinner))
    | within change a => exact .within (ih h)

end Table

/-! ### The nodes of a construct -/

/-- The kind is neither that of a comment or joint nor that of a mark. -/
def isCodeKind (kind : String) : Bool :=
  kind != "comment" && kind != "line_continuation" && kind != markKind

theorem isExtra_of_isCodeKind {n : Node} (h : isCodeKind n.kind = true) :
    isExtra n = false ∧ isMark n = false := by
  simp only [isCodeKind, Bool.and_eq_true, bne_iff_ne, ne_eq] at h
  simp [isExtra, isMark, Node.isComment, h]

/-- What a construct is made of: its nodes without the comments in front of the first token, and of
    these, its children. -/
structure Made (kind : String) (xs : List Node) (n : Node) : Prop where
  nonempty : xs.dropWhile isExtra ≠ []
  kind_eq : n.kind = kind
  named : n.named = true
  role_eq : n.role = ""
  start_eq : ∀ first ∈ (xs.dropWhile isExtra).head?, n.start = first.start ∧ n.row = first.row
  children_eq : n.children = (xs.dropWhile isExtra).filter (!isMark ·)

/-- The comments in front of a construct stay in front of it.  When there is nothing but comments,
    there is no construct. -/
theorem wrap_cases (kind : String) (xs : List Node) :
    xs.dropWhile isExtra = [] ∧ wrap kind xs = xs ∨
      ∃ n, Made kind xs n ∧ wrap kind xs = xs.takeWhile isExtra ++ [n] := by
  cases hbody : xs.dropWhile isExtra with
  | nil => exact .inl ⟨rfl, by simp only [wrap, hbody]⟩
  | cons first rest =>
    refine .inr ⟨.mk { kind := kind, extent := spanning first ((first :: rest).getLastD first) }
      ((first :: rest).filter (!isMark ·)), ?_, by simp only [wrap, hbody]⟩
    constructor
    case nonempty => rw [hbody]; simp
    case start_eq =>
      rw [hbody]
      rintro x ⟨⟩
      exact ⟨rfl, rfl⟩
    case children_eq => rw [hbody]; rfl
    all_goals rfl

/-- The nodes of a construct that is one of several nodes or a single one. -/
theorem gather_cases (kind : String) (xs : List Node) :
    gather kind xs = xs ∨ gather kind xs = wrap kind xs := by
  unfold gather
  split
  · exact .inl rfl
  · exact .inr rfl

@[simp] theorem isExtra_withRole (role : String) (n : Node) :
    isExtra (n.withRole role) = isExtra n := by cases n; rfl

@[simp] theorem isMark_withRole (role : String) (n : Node) :
    isMark (n.withRole role) = isMark n := by cases n; rfl

@[simp] theorem children_withRole (role : String) (n : Node) :
    (n.withRole role).children = n.children := by cases n; rfl

/-- A node that was given a role is the node it was apart from that. -/
theorem mem_assign {role : String} {xs : List Node} {x : Node} (h : x ∈ assign role xs) :
    x ∈ xs ∧ (isExtra x = true ∨ isMark x = true) ∨
      ∃ y ∈ xs, isExtra y = false ∧ isMark y = false ∧ x = y.withRole role := by
  obtain ⟨y, hy, rfl⟩ := List.mem_map.mp h
  split
  · rename_i hextra
    exact .inl ⟨hy, by simpa using hextra⟩
  · rename_i hcode
    simp only [Bool.or_eq_true, not_or, Bool.not_eq_true] at hcode
    exact .inr ⟨y, hy, hcode.1, hcode.2, rfl⟩

/-! ### The sorts of nodes that a rule yields -/

/-- All nodes that a rule yields, comments and marks apart, are of the sorts that a test by kind,
    naming and role admits.  The first argument bounds the depth of the check. -/
def Table.emits (g : Table τ ρ μ σ) (leaf : τ → (String → Bool → String → Bool) → Bool) :
    Nat → (String → Bool → String → Bool) → Rule τ ρ μ → Bool
  | 0, _, _ => false
  | _ + 1, sort, .term t => leaf t sort
  | depth + 1, sort, .call p => g.emits leaf depth sort (g.rule p)
  | _ + 1, _, .empty => true
  | depth + 1, sort, .seq a b => g.emits leaf depth sort a && g.emits leaf depth sort b
  | depth + 1, sort, .alt a b => g.emits leaf depth sort a && g.emits leaf depth sort b
  | depth + 1, sort, .many a => g.emits leaf depth sort a
  | _ + 1, _, .ahead _ => true
  | _ + 1, _, .avoid _ => true
  | _ + 1, sort, .node kind _ => sort kind true ""
  | depth + 1, sort, .group kind a => sort kind true "" && g.emits leaf depth sort a
  | depth + 1, sort, .role name a => g.emits leaf depth (fun kind named _ => sort kind named name) a
  | depth + 1, sort, .within _ a => g.emits leaf depth sort a

/-- The node is a comment or a mark, or of an admitted sort. -/
def OfSort (sort : String → Bool → String → Bool) (n : Node) : Prop :=
  isExtra n = true ∨ isMark n = true ∨ sort n.kind n.named n.role = true

/-- A construct of an admitted sort among nodes of which the comments are admitted anyway. -/
theorem ofSort_wrap {sort : String → Bool → String → Bool} {kind : String} {xs : List Node}
    (h : sort kind true "" = true) : ∀ x ∈ wrap kind xs, OfSort sort x := by
  have hextra : ∀ x ∈ xs.takeWhile isExtra, OfSort sort x :=
    fun x hx => .inl (List.all_eq_true.mp (List.all_takeWhile ..) x hx)
  rcases wrap_cases kind xs with ⟨hnone, hwrap⟩ | ⟨n, hmade, hwrap⟩
  · have hall : xs.takeWhile isExtra = xs := by
      have := List.takeWhile_append_dropWhile (p := isExtra) (l := xs)
      rwa [hnone, List.append_nil] at this
    rw [hwrap, ← hall]
    exact hextra
  · rw [hwrap]
    intro x hx
    rcases List.mem_append.mp hx with hold | hnew
    · exact hextra x hold
    · rw [List.mem_singleton.mp hnew]
      exact .inr (.inr (by rw [hmade.kind_eq, hmade.named, hmade.role_eq]; exact h))

/-- The check goes down at least one step where it succeeds. -/
theorem Table.depth_of_emits {g : Table τ ρ μ σ}
    {leaf : τ → (String → Bool → String → Bool) → Bool} {a : Rule τ ρ μ} {depth : Nat}
    {sort : String → Bool → String → Bool} (h : g.emits leaf depth sort a = true) :
    ∃ below, depth = below + 1 := by
  cases depth with
  | zero => cases h
  | succ below => exact ⟨below, rfl⟩

/-- **The check of the sorts is sound**, if it is for the terminals. -/
theorem Table.Yields.of_emits {g : Table τ ρ μ σ}
    {leaf : τ → (String → Bool → String → Bool) → Bool}
    (hleaf : ∀ {m t s xs s' sort}, g.lexis.read m t s = .ok (xs, s') → leaf t sort = true →
      ∀ x ∈ xs, OfSort sort x)
    {m : μ} {a : Rule τ ρ μ} {s s' : σ} {xs : List Node} (h : g.Yields m a s xs s') {depth : Nat}
    {sort : String → Bool → String → Bool} (hsort : g.emits leaf depth sort a = true) :
    ∀ x ∈ xs, OfSort sort x := by
  -- the test changes below a role, and the depth at every step, so both vary along the induction
  induction h generalizing depth sort with
  | term h =>
    obtain ⟨depth, rfl⟩ := depth_of_emits hsort
    exact hleaf h hsort
  | call _ ih =>
    obtain ⟨depth, rfl⟩ := depth_of_emits hsort
    exact ih hsort
  | empty => intro x hx; cases hx
  | seq _ _ ih ih' =>
    obtain ⟨depth, rfl⟩ := depth_of_emits hsort
    simp only [emits, Bool.and_eq_true] at hsort
    intro x hx
    rcases List.mem_append.mp hx with hx | hx
    · exact ih hsort.1 x hx
    · exact ih' hsort.2 x hx
  | left _ ih =>
    obtain ⟨depth, rfl⟩ := depth_of_emits hsort
    simp only [emits, Bool.and_eq_true] at hsort
    exact ih hsort.1
  | right _ ih =>
    obtain ⟨depth, rfl⟩ := depth_of_emits hsort
    simp only [emits, Bool.and_eq_true] at hsort
    exact ih hsort.2
  | stop => intro x hx; cases hx
  | more _ _ ih ih' =>
    obtain ⟨depth, rfl⟩ := depth_of_emits hsort
    have hsame := hsort
    intro x hx
    rcases List.mem_append.mp hx with hx | hx
    · exact ih hsort x hx
    · exact ih' hsame x hx
  | ahead => intro x hx; cases hx
  | avoid => intro x hx; cases hx
  | node _ _ =>
    obtain ⟨depth, rfl⟩ := depth_of_emits hsort
    exact ofSort_wrap hsort
  | @group _ kind _ _ xs _ _ ih =>
    obtain ⟨depth, rfl⟩ := depth_of_emits hsort
    simp only [emits, Bool.and_eq_true] at hsort
    -- a group of one node is this node, and else it is a construct
    rcases gather_cases kind xs with hgather | hgather
    · rw [hgather]; exact ih hsort.2
    · rw [hgather]; exact ofSort_wrap hsort.1
  | role _ ih =>
    obtain ⟨depth, rfl⟩ := depth_of_emits hsort
    intro x hx
    -- comments and marks have no role
    rcases mem_assign hx with ⟨-, hextra | hmark⟩ | ⟨y, hy, hyextra, hymark, rfl⟩
    · exact .inl hextra
    · exact .inr (.inl hmark)
    · rcases ih hsort y hy with h | h | h
      · rw [hyextra] at h; cases h
      · rw [hymark] at h; cases h
      · exact .inr (.inr (by cases y; exact h))
  | within _ ih =>
    obtain ⟨depth, rfl⟩ := depth_of_emits hsort
    exact ih hsort

/-! ### Where nodes come from -/

/-- The constructs that a rule speaks of, each with the rule of its parts. -/
def Rule.constructs : Rule τ ρ μ → List (String × Rule τ ρ μ)
  | .term _ => []
  | .call _ => []
  | .empty => []
  | .seq a b => a.constructs ++ b.constructs
  | .alt a b => a.constructs ++ b.constructs
  | .many a => a.constructs
  | .ahead a => a.constructs
  | .avoid a => a.constructs
  | .node kind a => (kind, a) :: a.constructs
  | .group kind a => (kind, a) :: a.constructs
  | .role _ a => a.constructs
  | .within _ a => a.constructs

/-- The terminals that a rule speaks of. -/
def Rule.terminals : Rule τ ρ μ → List τ
  | .term t => [t]
  | .call _ => []
  | .empty => []
  | .seq a b => a.terminals ++ b.terminals
  | .alt a b => a.terminals ++ b.terminals
  | .many a => a.terminals
  | .ahead a => a.terminals
  | .avoid a => a.terminals
  | .node _ a => a.terminals
  | .group _ a => a.terminals
  | .role _ a => a.terminals
  | .within _ a => a.terminals

/-- What a grammar may speak of: some of the terminals, and constructs with some of the rules. -/
structure Admitted (τ ρ μ : Type) where
  terminal : τ → Prop
  construct : String → Rule τ ρ μ → Prop

/-- A rule speaks only of what is admitted. -/
structure Admitted.Covers (ad : Admitted τ ρ μ) (a : Rule τ ρ μ) : Prop where
  terminals : ∀ t ∈ a.terminals, ad.terminal t
  constructs : ∀ c ∈ a.constructs, ad.construct c.1 c.2

theorem Admitted.Covers.alt {ad : Admitted τ ρ μ} {a b : Rule τ ρ μ} (ha : ad.Covers a)
    (hb : ad.Covers b) : ad.Covers (.alt a b) where
  terminals t ht := (List.mem_append.mp ht).elim (ha.terminals t) (hb.terminals t)
  constructs c hc := (List.mem_append.mp hc).elim (ha.constructs c) (hb.constructs c)

/-- What reading terminals keeps true of states, reading rules does. -/
theorem Table.Yields.keeps {g : Table τ ρ μ σ} (inv : σ → Prop)
    (hinv : ∀ {m t s xs s'}, g.lexis.read m t s = .ok (xs, s') → inv s → inv s')
    {m : μ} {a : Rule τ ρ μ} {s s' : σ} {xs : List Node} (h : g.Yields m a s xs s') (hs : inv s) :
    inv s' := by
  -- only a terminal changes the state, so the other cases pass the invariant on
  induction h with
  | term h => exact hinv h hs
  | call _ ih => exact ih hs
  | empty => exact hs
  | seq _ _ ih ih' => exact ih' (ih hs)
  | left _ ih => exact ih hs
  | right _ ih => exact ih hs
  | stop => exact hs
  | more _ _ ih ih' => exact ih' (ih hs)
  | ahead => exact hs
  | avoid => exact hs
  | node _ ih => exact ih hs
  | group _ ih => exact ih hs
  | role _ ih => exact ih hs
  | within _ ih => exact ih hs

/-- What a repetition yields is yielded piece by piece. -/
theorem Table.Yields.pieces {g : Table τ ρ μ σ} (inv : σ → Prop)
    (hinv : ∀ {m t s xs s'}, g.lexis.read m t s = .ok (xs, s') → inv s → inv s')
    {m : μ} {a : Rule τ ρ μ} {s s' : σ} {xs : List Node} (h : g.Yields m (.many a) s xs s')
    (hs : inv s) : ∃ pieces : List (List Node), xs = pieces.flatten ∧
      ∀ ys ∈ pieces, ∃ s₁ s₂, inv s₁ ∧ g.Yields m a s₁ ys s₂ := by
  generalize hrule : Rule.many a = r at h
  induction h with
  | stop => exact ⟨[], rfl, fun ys hys => by cases hys⟩
  | @more _ _ s ys s₁ zs _ hfirst _ _ ih =>
    cases hrule
    obtain ⟨pieces, rfl, hpieces⟩ := ih (hfirst.keeps inv hinv hs) rfl
    refine ⟨ys :: pieces, rfl, fun ys' hys' => ?_⟩
    rcases List.mem_cons.mp hys' with rfl | hys'
    · exact ⟨s, s₁, hs, hfirst⟩
    · exact hpieces ys' hys'
  | _ => cases hrule

/-- What a choice yields, one of its rules does. -/
theorem Table.Yields.of_any {g : Table τ ρ μ σ} {m : μ} {rules : List (Rule τ ρ μ)} {s s' : σ}
    {xs : List Node} (h : g.Yields m (.any rules) s xs s') (hrules : rules ≠ []) :
    ∃ a ∈ rules, g.Yields m a s xs s' := by
  induction rules with
  | nil => exact absurd rfl hrules
  | cons a rest ih =>
    cases rest with
    | nil => exact ⟨a, List.mem_cons_self, h⟩
    | cons b rest =>
      cases h with
      | left h => exact ⟨a, List.mem_cons_self, h⟩
      | right h =>
        obtain ⟨c, hc, h⟩ := ih h (by simp)
        exact ⟨c, List.mem_cons_of_mem a hc, h⟩

/-- A node comes from a grammar: a terminal was read as this node, or it was made of what the rule of
    one of the constructs yields. -/
def Table.Origin (g : Table τ ρ μ σ) (inv : σ → Prop) (ad : Admitted τ ρ μ) (n : Node) : Prop :=
  (∃ m t s ys s', ad.terminal t ∧ g.lexis.read m t s = .ok (ys, s') ∧ n ∈ ys) ∨
    ∃ kind a m s ys s', ad.construct kind a ∧ inv s ∧ g.Yields m a s ys s' ∧ Made kind ys n

/-- Every node of some trees, whatever its role, comes from a grammar. -/
def Table.AllOrigin (g : Table τ ρ μ σ) (inv : σ → Prop) (ad : Admitted τ ρ μ) (xs : List Node) :
    Prop :=
  ∀ x ∈ xs, ∀ n ∈ x.preorder, ∃ role n', g.Origin inv ad n' ∧ n = n'.withRole role

section Origin

variable {g : Table τ ρ μ σ} {inv : σ → Prop} {ad : Admitted τ ρ μ}

/-- A construct and its parts come from a grammar if the parts do. -/
theorem Table.AllOrigin.wrap {m : μ} {kind : String} {a : Rule τ ρ μ} {s s' : σ} {xs : List Node}
    (hxs : g.AllOrigin inv ad xs) (hadmitted : ad.construct kind a) (hs : inv s)
    (h : g.Yields m a s xs s') : g.AllOrigin inv ad (wrap kind xs) := by
  rcases wrap_cases kind xs with ⟨-, hwrap⟩ | ⟨made, hmade, hwrap⟩
  · rw [hwrap]; exact hxs
  · rw [hwrap]
    intro x hx n hn
    rcases List.mem_append.mp hx with hold | hnew
    · exact hxs x ((List.takeWhile_sublist _).subset hold) n hn
    · rw [List.mem_singleton.mp hnew] at hn
      rcases mem_preorder.mp hn with rfl | ⟨c, hc, hn⟩
      · refine ⟨n.role, n, .inr ⟨kind, a, m, s, xs, s', hadmitted, hs, h, hmade⟩, ?_⟩
        cases n; rfl
      · rw [hmade.children_eq] at hc
        exact hxs c ((List.dropWhile_sublist _).subset (List.mem_filter.mp hc).1) n hn

/-- **Every node comes from the grammar**: what a rule yields are terminals, and constructs of the
    rule or of the table. -/
theorem Table.Yields.origin (htable : ∀ p, ad.Covers (g.rule p))
    (hleaf : ∀ {m t s xs s'}, g.lexis.read m t s = .ok (xs, s') → ∀ x ∈ xs, x.children = [])
    (hinv : ∀ {m t s xs s'}, g.lexis.read m t s = .ok (xs, s') → inv s → inv s')
    {m : μ} {a : Rule τ ρ μ} {s s' : σ} {xs : List Node} (h : g.Yields m a s xs s')
    (ha : ad.Covers a) (hs : inv s) : g.AllOrigin inv ad xs := by
  -- where a node came from: a terminal, or a construction of the rules that were covered
  induction h with
  | @term m t s xs s' h =>
    intro x hx n hn
    rcases mem_preorder.mp hn with rfl | ⟨c, hc, -⟩
    -- the terminal's own node, whose role is filled in later and may be any
    · refine ⟨n.role, n, .inl ⟨m, t, s, xs, s', ha.terminals t List.mem_cons_self, h, hx⟩, ?_⟩
      cases n; rfl
    · rw [hleaf h x hx] at hc
      cases hc
  | call _ ih => exact ih (htable _) hs
  | empty => intro x hx; cases hx
  | seq h _ ih ih' =>
    intro x hx
    rcases List.mem_append.mp hx with hx | hx
    · exact ih ⟨fun t ht => ha.terminals t (List.mem_append_left _ ht),
        fun c hc => ha.constructs c (List.mem_append_left _ hc)⟩ hs x hx
    · exact ih' ⟨fun t ht => ha.terminals t (List.mem_append_right _ ht),
        fun c hc => ha.constructs c (List.mem_append_right _ hc)⟩ (h.keeps inv hinv hs) x hx
  | left _ ih =>
    exact ih ⟨fun t ht => ha.terminals t (List.mem_append_left _ ht),
      fun c hc => ha.constructs c (List.mem_append_left _ hc)⟩ hs
  | right _ ih =>
    exact ih ⟨fun t ht => ha.terminals t (List.mem_append_right _ ht),
      fun c hc => ha.constructs c (List.mem_append_right _ hc)⟩ hs
  | stop => intro x hx; cases hx
  | more h _ ih ih' =>
    intro x hx
    rcases List.mem_append.mp hx with hx | hx
    · exact ih ⟨ha.terminals, ha.constructs⟩ hs x hx
    · exact ih' ha (h.keeps inv hinv hs) x hx
  | ahead => intro x hx; cases hx
  | avoid => intro x hx; cases hx
  | node h ih =>
    exact (ih ⟨ha.terminals, fun c hc => ha.constructs c (List.mem_cons_of_mem _ hc)⟩ hs).wrap
      (ha.constructs _ List.mem_cons_self) hs h
  | @group _ kind _ _ xs _ h ih =>
    have hxs := ih ⟨ha.terminals, fun c hc => ha.constructs c (List.mem_cons_of_mem _ hc)⟩ hs
    rcases gather_cases kind xs with hgather | hgather
    · rw [hgather]; exact hxs
    · rw [hgather]; exact hxs.wrap (ha.constructs _ List.mem_cons_self) hs h
  | @role _ name _ _ _ _ _ ih =>
    have hxs := ih ⟨ha.terminals, ha.constructs⟩ hs
    intro x hx n hn
    rcases mem_assign hx with ⟨hx, -⟩ | ⟨y, hy, -, -, rfl⟩
    · exact hxs x hx n hn
    -- the role changes the node at the top only, so its origin is that of the same node without it
    · rcases mem_preorder.mp hn with rfl | ⟨c, hc, hn⟩
      · obtain ⟨role, n', horigin, heq⟩ := hxs y hy y (mem_preorder.mpr (.inl rfl))
        refine ⟨name, n', horigin, ?_⟩
        rw [heq]
        cases n'; rfl
      · refine hxs y hy n (mem_preorder.mpr (.inr ⟨c, ?_, hn⟩))
        cases y; exact hc
  | within _ ih => exact ih ⟨ha.terminals, ha.constructs⟩ hs

/-- Comments and marks play no role. -/
theorem Table.Yields.role_of_extra
    (hleaf : ∀ {m t s xs s'}, g.lexis.read m t s = .ok (xs, s') → ∀ x ∈ xs, x.role = "")
    {m : μ} {a : Rule τ ρ μ} {s s' : σ} {xs : List Node} (h : g.Yields m a s xs s') :
    ∀ x ∈ xs, isExtra x = true ∨ isMark x = true → x.role = "" := by
  -- wrapping keeps the fact: what goes out in front was there before, and what is made has no role
  have hwrap : ∀ {kind xs}, (∀ x ∈ xs, isExtra x = true ∨ isMark x = true → x.role = "") →
      ∀ x ∈ Grammar.wrap kind xs, isExtra x = true ∨ isMark x = true → x.role = "" := by
    intro kind xs hxs
    rcases wrap_cases kind xs with ⟨-, hwrap⟩ | ⟨made, hmade, hwrap⟩
    · rw [hwrap]; exact hxs
    · rw [hwrap]
      intro x hx hextra
      rcases List.mem_append.mp hx with hx | hx
      · exact hxs x ((List.takeWhile_sublist _).subset hx) hextra
      · rw [List.mem_singleton.mp hx]; exact hmade.role_eq
  induction h with
  | term h => exact fun x hx _ => hleaf h x hx
  | call _ ih => exact ih
  | empty => intro x hx; cases hx
  | seq _ _ ih ih' =>
    intro x hx
    rcases List.mem_append.mp hx with hx | hx
    · exact ih x hx
    · exact ih' x hx
  | left _ ih => exact ih
  | right _ ih => exact ih
  | stop => intro x hx; cases hx
  | more _ _ ih ih' =>
    intro x hx
    rcases List.mem_append.mp hx with hx | hx
    · exact ih x hx
    · exact ih' x hx
  | ahead => intro x hx; cases hx
  | avoid => intro x hx; cases hx
  | node _ ih => exact hwrap ih
  | @group _ kind _ _ xs _ _ ih =>
    rcases gather_cases kind xs with hgather | hgather
    · rw [hgather]; exact ih
    · rw [hgather]; exact hwrap ih
  | role _ ih =>
    intro x hx hextra
    -- a role is only given to a node that is neither a comment nor a mark
    rcases mem_assign hx with ⟨hx, -⟩ | ⟨y, -, hyextra, hymark, rfl⟩
    · exact ih x hx hextra
    · rw [isExtra_withRole, isMark_withRole, hyextra, hymark] at hextra
      rcases hextra with h | h <;> cases h
  | within _ ih => exact ih

end Origin

end Docsmith.Grammar
