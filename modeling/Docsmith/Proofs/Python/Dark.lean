import Docsmith.Proofs.Python.Bare
import Docsmith.Proofs.Python.Firm

namespace Docsmith.Python

/-!
# Statements begin with ink

A construct begins with a token, and that begins with a character that is no white space.  So do the statements in
the body of a definition.

* `begun`: a check that a construct begins with a token, or is a block of constructs that do.
* `Started`: a node begins with ink unless it is a block, and then its parts do.
* `Orderly`: a tree cuts no character, and its definitions have bodies whose statements begin with ink.
* `parseTree_orderly`: the tree of a source is orderly.
-/

open Grammar SourceTree

variable {code : Bytes} {t : SourceTree} {n : Node}

/-! ### What the grammar speaks of -/

/-- A node that begins with ink. -/
def isInky (kind : String) (_ : Bool) (_ : String) : Bool := !isLoose kind

/-- A construct begins with a token, or is a block of constructs that do. -/
def begun (kind : String) (a : Phrase) : Bool :=
  if kind == "block" then table.emits leafSort 40 isInky a else !isLoose kind && leads 80 true isInky a

/-- What the grammar speaks of: terminals whose texts are visible, and constructs that begin with tokens. -/
def starting : Admitted Terminal Production Mode where
  terminal t := t.form.inked = true
  construct kind a := begun kind a = true

theorem starting_covers (p : Production) : starting.Covers (rule p) := by
  have hterminals : ((rule p).terminals.all fun t => t.form.inked) = true := by
    cases p with
    | parameter typed => cases typed <;> decide +kernel
    | _ => decide +kernel
  have hconstructs : ((rule p).constructs.all fun c => begun c.1 c.2) = true := by
    cases p with
    | parameter typed => cases typed <;> decide +kernel
    | _ => decide +kernel
  exact ⟨List.all_eq_true.mp hterminals, List.all_eq_true.mp hconstructs⟩

/-- A terminal and the comments before it cut no character. -/
theorem readTerminal_lined {mode : Mode} {t : Terminal} {s s' : State} {xs : List Node}
    (h : table.lexis.read mode t s = .ok (xs, s')) (ht : starting.terminal t) (hs : Poised code s) :
    Lined code.Whole (table.lexis.offset s) xs (table.lexis.offset s') ∧ Poised code s' :=
  (readTerminal_read h ht hs).imp_left Read.lined

/-! ### Constructs -/

/-- The node begins with ink, unless it is of a kind for which this is not known; of a block all parts do. -/
structure Started (code : Bytes) (n : Node) : Prop where
  inky : isLoose n.kind = false → Inky code n
  block : n.kind = "block" → ∀ c ∈ n.children, isLoose c.kind = false

section Covering

variable {mode : Mode} {a : Phrase} {s s' : State} {xs rest : List Node} {first : Node}

/-- The parts of a block are constructs that begin with tokens. -/
theorem covering_parts (h : table.Yields mode a s xs s') (hparts : table.emits leafSort 40 isInky a = true)
    (hdrop : xs.dropWhile isExtra = first :: rest) (kind : String) :
    ∀ c ∈ (covering kind first rest).children, isLoose c.kind = false := by
  intro c hc
  obtain ⟨hmem, hmark⟩ := List.mem_filter.mp hc
  have hpart : c ∈ xs := (List.dropWhile_sublist _).subset (hdrop ▸ hmem)
  rcases ofSort_of_yields h hparts c hpart with hextra | hmark' | hsort
  · simp only [isExtra, Node.isComment, Bool.or_eq_true, beq_iff_eq] at hextra
    rcases hextra with hextra | hextra <;> rw [hextra] <;> rfl
  · rw [hmark'] at hmark
    cases hmark
  · simpa [isInky] using hsort

/-- A construct begins with ink if its first token does. -/
theorem covering_inky (h : table.Yields mode a s xs s') (ha : starting.Covers a) (hs : Poised code s)
    (hleads : leads 80 true isInky a = true) (hxs : ∀ x ∈ xs, Started code x)
    (hdrop : xs.dropWhile isExtra = first :: rest) (kind : String) : Inky code (covering kind first rest) := by
  -- the first token is a part of the construct
  have hlined := (h.lined starting_covers readTerminal_lined ha hs).1
  rw [← List.takeWhile_append_dropWhile (p := isExtra) (l := xs), hdrop] at hlined
  obtain ⟨c, -, hbody⟩ := hlined.split
  have hend := (hbody.to_last.1.mem List.mem_cons_self).1.2.2
  obtain ⟨comments, found, hopen⟩ | ⟨hmust, -⟩ := begins_of_yields h hs.sane hleads
  · have hhead := hopen.comments_eq.2
    rw [hdrop] at hhead
    cases hhead
    have hfirst : first ∈ xs :=
      (List.dropWhile_sublist _).subset (hdrop ▸ List.mem_cons_self : first ∈ xs.dropWhile isExtra)
    have hinky := (hxs first hfirst).inky (by simpa [isInky] using hopen.sort_eq)
    exact ⟨hinky.dark, Nat.lt_of_lt_of_le hinky.size hend⟩
  · cases hmust

end Covering

/-- **Constructs begin with ink**, because the tokens that they begin with do. -/
theorem passes_started (code : Bytes) : table.Passes starting (Poised code) (Started code) where
  role n role h := by
    cases n
    exact ⟨fun hkind => ⟨(h.inky hkind).dark, (h.inky hkind).size⟩, h.block⟩
  leaf h ht hs := by
    obtain ⟨hread, hs'⟩ := readTerminal_read h ht hs
    refine ⟨fun x hx => ?_, hs'⟩
    have hnil := ((readTerminal_sorted h).2 x hx).leaf
    refine ⟨hnil, hread.inky x hx, fun _ c hc => ?_⟩
    rw [hnil] at hc
    cases hc
  construct {kind a m s xs s' first rest} hkind ha hs h hxs hdrop := by
    have hbegun : begun kind a = true := hkind
    -- a block is of a loose kind, and what is asked of it is about its parts; any other node begins with a token
    unfold begun at hbegun
    split at hbegun
    · rename_i hblock
      rw [beq_iff_eq] at hblock
      subst hblock
      exact ⟨fun hloose => (by cases hloose), fun _ => covering_parts h hbegun hdrop _⟩
    · rw [Bool.and_eq_true, Bool.not_eq_true'] at hbegun
      refine ⟨fun _ => covering_inky h ha hs hbegun.2 hxs hdrop _, fun hblock => ?_⟩
      have hsame : kind = "block" := hblock
      rw [hsame] at hbegun
      cases hbegun.1

/-! ### Sources -/

/-- The tree cuts no character, and no edit of it waits.  The statements in the body of a definition are not empty,
    and they begin with characters that are no white space. -/
structure Orderly (t : SourceTree) : Prop extends t.Firm where
  clean : t.edits.dirty = false
  statements : ∀ n ∈ t.root.preorder, isDefinition n = true → ∀ block ∈ n.child? "body",
    ∀ s ∈ Python.statements block, Inky t.code s

/-- **The tree of a source is orderly.** -/
theorem parseTree_orderly (code : Bytes) : Returns (parseTree code) Orderly := by
  intro t ht
  have hparse := parse_of_fresh (parseTree_reads.fresh code t ht)
  obtain ⟨nodes, s, hyields, -, hstart, hstop, hchildren⟩ := yields_of_parse hparse
  have hs : Poised t.code { place := .origin t.code } :=
    ⟨.origin t.code, Place.sane_origin t.code, fun q hq => by cases hq⟩
  have hfirm : t.Firm := hyields.firm (Poised t.code) starting_covers
    (fun h x hx => ((readTerminal_sorted h).2 x hx).leaf) (fun hs => ⟨hs.between.whole, hs.between.bounded⟩)
    readTerminal_lined (starting_covers _) hs (!isMark ·) ⟨hstart, hstop, hchildren⟩
  have hstarted := (hyields.holds (passes_started t.code) starting_covers (starting_covers _) hs).1
  -- every node but the root comes from the grammar
  have hchild (n : Node) (hn : n ∈ t.root.preorder) (c : Node) (hc : c ∈ n.children) : Started t.code c := by
    rcases mem_preorder.mp hn with rfl | ⟨x, hx, hn⟩
    · rw [hchildren] at hc
      exact hstarted c (List.mem_filter.mp hc).1 c (mem_preorder.mpr (.inl rfl))
    · rw [hchildren] at hx
      exact hstarted x (List.mem_filter.mp hx).1 c (preorder_child hn hc)
  refine ⟨hfirm, (parseTree_reads code t ht).2, fun n hn hdefinition block hblock stmt hstmt => ?_⟩
  obtain ⟨before, between, colon, body, hheaded⟩ := headed_of_parse hparse hn hdefinition
  have hbody : block ∈ n.children := child?_mem hblock
  have hkind : block.kind = "block" := by
    rw [hheaded.body?] at hblock
    cases hblock
    exact hheaded.kind_eq
  have hpart := mem_of_mem_statements hstmt
  exact (hchild block (preorder_child hn hbody) stmt hpart).inky ((hchild n hn block hbody).block hkind stmt hpart)

end Docsmith.Python
