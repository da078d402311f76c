import Docsmith.Proofs.Go.Groups
import Docsmith.Proofs.Grammar.Lined

namespace Docsmith.Go

open Grammar

/-!
# What the constructs of Go are made of

The names of declarations are tokens, and the constructs that hold declarations begin with a token of their own.

* `tokenKinds`, `namingKinds`, `openings`: kinds of tokens, of constructs with names, and of constructs with their first
  tokens.
* `formed`: a check of the constructs that the grammar speaks of.
* `Formed`, `formed_of_parse`: the nodes of a parsed source keep to it.
-/

variable {code : Bytes} {n : Node} {xs : List Node} {s s' : State}

/-- Kinds of nodes without parts. -/
def tokenKinds : List String :=
  ["identifier", "field_identifier", "type_identifier", ",", "const", "var", "type", "comment", "line_continuation",
    markKind]

/-- The kinds of constructs whose names are looked up. -/
def namingKinds : List String := ["function_declaration", "method_declaration"] ++ specKinds ++ methodKinds

/-- Kinds of constructs, each with the kind of the token that it begins with. -/
def openings : List (String × String) :=
  [("const_declaration", "const"), ("var_declaration", "var"), ("type_declaration", "type"), ("var_spec_list", "("),
    ("interface_type", "interface")]

/-- A method of an interface has a name, and is neither a comment nor the keyword. -/
theorem methodKinds_plain {kind : String} (h : methodKinds.contains kind = true) :
    kind ≠ "comment" ∧ kind ≠ "interface" ∧ namingKinds.contains kind = true := by
  have hall : ∀ kind ∈ methodKinds, kind ≠ "comment" ∧ kind ≠ "interface" ∧ namingKinds.contains kind = true := by
    decide
  exact hall kind (List.contains_iff_mem.mp h)

/-- What plays the role of a name is a token. -/
def isNameSort (kind : String) (_ : Bool) (role : String) : Bool := role != "name" || tokenKinds.contains kind

/-- A list of members is one of variables. -/
def isVarList (kind : String) (_ : Bool) (_ : String) : Bool := !kind.endsWith "_spec_list" || kind == "var_spec_list"

/-- The rule begins with a bare token. -/
def opensWith (text : String) : Phrase → Bool
  | .seq (.term t) _ => t.form.sorts == [(text, false)] && isCodeKind text
  | _ => false

/-- The check of a construct. -/
def isFormed (kind : String) (a : Phrase) : Bool :=
  isCodeKind kind && !tokenKinds.contains kind
    && (!namingKinds.contains kind || table.emits leafSort 60 isNameSort a)
    && (!groupKinds.contains kind || table.emits leafSort 60 isVarList a)
    && openings.all fun x => kind != x.1 || opensWith x.2 a

/-- Tokens that are none of these constructs, and constructs that pass the check. -/
def formed : Admitted Terminal Production Bool where
  terminal t := (t.form.sorts.all fun x => !groupKinds.contains x.1 && openings.all (x.1 != ·.1)) = true
  construct kind a := isFormed kind a = true

theorem formed_covers (p : Production) : formed.Covers (rule p) := by
  have hcheck : ((rule p).terminals.all fun t => t.form.sorts.all fun x =>
      !groupKinds.contains x.1 && openings.all (x.1 != ·.1)) = true ∧
      ((rule p).constructs.all fun c => isFormed c.1 c.2) = true := by
    cases p
    all_goals first | decide +kernel | (rename_i header; cases header <;> decide +kernel)
  exact ⟨fun t ht => List.all_eq_true.mp hcheck.1 t ht, fun c hc => List.all_eq_true.mp hcheck.2 c hc⟩

/-- The node is made up as its kind asks for. -/
structure Formed (n : Node) : Prop where
  token : tokenKinds.contains n.kind = true → n.children = []
  names : namingKinds.contains n.kind = true → ∀ c ∈ n.children, c.role = "name" → c.children = []
  opening : ∀ x ∈ openings, n.kind = x.1 → ∃ first rest,
    n.children = first :: rest ∧ first.kind = x.2 ∧ first.named = false
  lists : groupKinds.contains n.kind = true → ∀ c ∈ n.children, c.kind.endsWith "_spec_list" = true →
    c.kind = "var_spec_list"

/-- A rule that begins with a bare token yields it behind comments. -/
theorem begun_of_opensWith {bound : Bool} {a : Phrase} {text : String} (h : table.Yields bound a s xs s')
    (ha : opensWith text a = true) : ∃ comments token rest, Begun xs comments token rest ∧ token.kind = text := by
  unfold opensWith at ha
  split at ha
  · rw [Bool.and_eq_true, beq_iff_eq] at ha
    cases h with
    | seq hfirst hrest =>
      obtain ⟨comments, token, hbegun, hkind⟩ := begun_of_yields hfirst ha.1 ha.2
      exact ⟨comments, token, _, hbegun.append, hkind⟩
  · cases ha

theorem passes_formed : table.Passes formed (fun _ => True) Formed where
  role n role h := by
    -- none of the four facts looks at the role
    cases n
    exact ⟨h.token, h.names, h.opening, h.lists⟩
  leaf h ht _ := by
    refine ⟨fun x hx => ?_, trivial⟩
    obtain ⟨hnone, -, hsort⟩ := readTerminal_sorted h x hx
    -- what a terminal makes is a comment or of one of its own sorts, and none of those is a group or an opening
    have hkind : (!groupKinds.contains x.kind && openings.all (x.kind != ·.1)) = true := by
      rcases hsort with ⟨hcomment, -⟩ | hsort
      · rw [beq_iff_eq.mp hcomment]
        decide
      · exact List.all_eq_true.mp ht _ hsort
    obtain ⟨hgroup, hopening⟩ := Bool.and_eq_true_iff.mp hkind
    rw [hnone]
    refine ⟨rfl, fun _ => hnone, fun _ c hc => ?_, fun y hy heq => ?_, fun _ c hc => ?_⟩
    · rw [hnone] at hc
      cases hc
    · exact absurd heq (bne_iff_ne.mp (List.all_eq_true.mp hopening y hy))
    · rw [hnone] at hc
      cases hc
  construct {kind a _ _ xs _ first rest} hkind _ _ hyields hxs hdrop := by
    have hkind : isFormed kind a = true := hkind
    simp only [isFormed, Bool.and_eq_true, Bool.or_eq_true, Bool.not_eq_true'] at hkind
    obtain ⟨⟨⟨⟨hcode, htoken⟩, hnames⟩, hlists⟩, hopening⟩ := hkind
    have hmem (c : Node) (hc : c ∈ (covering kind first rest).children) : c ∈ xs :=
      (List.dropWhile_sublist _).subset (hdrop ▸ (List.mem_filter.mp hc).1)
    refine ⟨fun h => ?_, fun h c hc hrole => ?_, fun y hy heq => ?_, fun h c hc hlist => ?_⟩
    · exact absurd (htoken.symm.trans h) (by decide)
    -- a naming kind lists its parts, so the one with the role of a name is a token
    · refine (hxs c (hmem c hc)).token ?_
      have hemits := hnames.resolve_left (by rw [show namingKinds.contains kind = true from h]; decide)
      rcases ofSort_of_yields hyields hemits c (hmem c hc) with hextra | hmark | hsort
      · rw [isExtra, Bool.or_eq_true, Node.isComment, beq_iff_eq, beq_iff_eq] at hextra
        rcases hextra with hextra | hextra <;> rw [hextra] <;> decide
      · rw [beq_iff_eq.mp hmark]
        decide
      · simpa [isNameSort, hrole] using hsort
    -- an opening kind begins with its keyword; only comments can stand before it
    · have hopens := List.all_eq_true.mp hopening y hy
      rw [Bool.or_eq_true, bne_iff_ne, ne_eq] at hopens
      obtain ⟨comments, token, rest', hbegun, htoken⟩ :=
        begun_of_opensWith hyields (hopens.resolve_left (not_not_intro heq))
      have hchildren : (covering kind first rest).children = token :: rest'.filter (!isMark ·) := by
        rw [← hbegun.made_eq.2, hdrop]
        rfl
      exact ⟨token, _, hchildren, htoken, hbegun.bare⟩
    -- a list under a group can only be the list the rule itself makes
    · have hemits := hlists.resolve_left (by rw [show groupKinds.contains kind = true from h]; decide)
      rcases ofSort_of_yields hyields hemits c (hmem c hc) with hextra | hmark | hsort
      · rw [isExtra, Bool.or_eq_true, Node.isComment, beq_iff_eq, beq_iff_eq] at hextra
        rcases hextra with hextra | hextra <;> rw [hextra] at hlist <;> exact absurd hlist (by decide +kernel)
      · rw [beq_iff_eq.mp hmark] at hlist
        exact absurd hlist (by decide +kernel)
      · rw [isVarList, hlist] at hsort
        exact beq_iff_eq.mp hsort

/-- **The nodes of a parsed source** are made up as their kinds ask for. -/
theorem formed_of_parse {root x : Node} (h : parse code = .ok root) (hx : x ∈ root.children)
    (hn : n ∈ x.preorder) : Formed n := by
  obtain ⟨s, hyields, -⟩ := yields_of_parse h
  exact (hyields.holds passes_formed formed_covers (formed_covers _) trivial).1 x hx n hn

end Docsmith.Go
