import Docsmith.Proofs.Go.Regular
import Docsmith.Proofs.Go.Shorter
import Docsmith.Proofs.Grammar.Lined
import Docsmith.Proofs.Source.Parting

namespace Docsmith.Go

open Grammar SourceTree

/-!
# Tokens when comments go

A source consists of comments, of the line feeds that end statements, and of tokens, with white space between
them.  When the comments go, the tokens stay, and with them some of the white space between any two of them.
Where two tokens are parted by nothing but comments, they are joined.

* `Leaf`: how a node without parts begins and ends, and `Sound`: every node is one or a construct.
* `leaves`: the nodes without parts, and `laid_leaves`: they lie one after another.
* `leaves_of_parse`: a source is made up of its leaves.
* `tokenSpans`, `tokenTexts`: the tokens of a source.
* `commented_of_parse`, `tokens_of_parse`: its comments are apart, and its tokens are all the other code.
* `tokens_stay`: what is left of a source when its comments go, and `tokens_joined`: it may be other tokens.
-/

variable {code : Bytes} {p : Place} {s s' : State} {xs : List Node} {n : Node} {a b i : Nat}

/-! ### Nodes without parts -/

/-- How a node without parts begins and ends.  Before a line feed or a zero byte a comment may end with white
    space, but there is no line feed in it then. -/
inductive Leaf (code : Bytes) (n : Node) : Prop where
  | comment (hcomment : n.isComment = true) (hstart : code[n.start]? = some 0x2f)
      (hstop : code.inkAt (n.stop - 1) = true ∨
        (∀ i, n.start ≤ i → i < n.stop → code[i]? ≠ some Bytes.newline) ∧
          ∀ x, code[n.stop]? = some x → x = 0 ∨ x = Bytes.newline)
  | feed (hcode : n.isComment = false) (hfeed : code[n.start]? = some Bytes.newline)
      (hstop : n.stop = n.start + 1)
  | token (hcode : n.isComment = false) (hstart : code.inkAt n.start = true)
      (hstop : code.inkAt (n.stop - 1) = true)

/-- The node is no mark.  A comment has no parts, and without parts it is a leaf. -/
structure Sound (code : Bytes) (n : Node) : Prop where
  mark : isMark n = false
  childless : n.isComment = true → n.children = []
  leaf : n.children = [] → Leaf code n

/-- A comment is a leaf. -/
theorem leaf_comment (h : commentLength p.rest ≠ 0) (hp : p.Within code) :
    Leaf code (p.leaf "comment" true (commentLength p.rest)) := by
  obtain ⟨hle, hfirst, hends⟩ := commentLength_cases h
  have hstop : (p.leaf "comment" true (commentLength p.rest)).stop = p.offset + commentLength p.rest := by
    show (p.advance _).offset = _
    rw [Place.offset_advance, Nat.min_eq_left hle]
  refine .comment rfl ?_ ?_
  · rw [← hfirst, hp.getElem?_rest, Nat.add_zero]
    rfl
  · rw [hstop]
    rcases hends with ⟨hline, hnext⟩ | hlast
    · refine .inr ⟨fun i hi hi' hfeed => ?_, fun x hx => hnext x (by rw [hp.getElem?_rest, hx])⟩
      refine hline (List.mem_of_getElem? (i := i - p.offset) ?_)
      have hstart : p.offset ≤ i := hi
      rw [List.getElem?_take, if_pos (by omega), hp.getElem?_rest, Nat.add_sub_cancel' hstart, hfeed]
    · rw [hp.getElem?_rest, ← Nat.add_sub_assoc (by omega)] at hlast
      exact .inl (by rw [Bytes.inkAt, hlast]; rfl)

/-- The comments before a token are leaves. -/
theorem extras_sound (lines : Bool) (steps : Nat) (hp : p.Within code) :
    ∀ x ∈ (extras lines steps p).1, Sound code x := by
  -- induction on the reading steps: each one skips a blank, takes a comment or stops
  induction steps generalizing p with
  | zero => exact fun x hx => by cases hx
  | succ steps ih =>
    rw [extras]
    split
    · exact fun x hx => by cases hx
    · split
      · exact ih (hp.advance 1)
      · dsimp only
        split
        · exact fun x hx => by cases hx
        · rename_i hsize
          intro x hx
          rcases List.mem_cons.mp hx with rfl | hx
          -- a comment of size zero would not count as read, which `hsize` excludes
          · exact ⟨rfl, fun _ => rfl, fun _ => leaf_comment (by simpa using hsize) hp⟩
          · exact ih (hp.advance _) x hx

/-- What a form finds is a leaf. -/
theorem leaf_found {kind : String} {named : Bool} {size : Nat} (h : Found p.rest size) (hsize : size ≠ 0)
    (hkind : isCodeKind kind = true) (hp : p.Within code) : Leaf code (p.leaf kind named size) := by
  have hcode : (p.leaf kind named size).isComment = false := by
    have hextra := (isExtra_of_isCodeKind (n := p.leaf kind named size) hkind).1
    rw [isExtra, Bool.or_eq_false_iff] at hextra
    exact hextra.1
  -- a token is the single line feed of a statement's end, or it begins and ends with ink
  rcases h.ends hsize with ⟨rfl, hfeed⟩ | ⟨⟨x, hx, hink⟩, y, hy, hink'⟩
  · have hlength := (List.getElem?_eq_some_iff.mp hfeed).1
    rw [hp.getElem?_rest, Nat.add_zero] at hfeed
    refine .feed hcode hfeed ?_
    show (p.advance 1).offset = p.offset + 1
    rw [Place.offset_advance, Nat.min_eq_left (by omega)]
  · have hlength := (List.getElem?_eq_some_iff.mp hy).1
    have hstop : (p.leaf kind named size).stop = p.offset + size := by
      show (p.advance size).offset = _
      -- the place moves on by the whole token, whose last byte is still inside the code
      rw [Place.offset_advance, Nat.min_eq_left (by omega)]
    rw [hp.getElem?_rest] at hx hy
    refine .token hcode ?_ ?_
    · show code.inkAt p.offset = true
      rw [Bytes.inkAt, ← Nat.add_zero p.offset, hx]
      simpa using hink
    · rw [hstop, Bytes.inkAt, Nat.add_sub_assoc (by omega), hy]
      simpa using hink'

/-- What a terminal is read as is sound. -/
theorem readTerminal_sound {bound : Bool} {t : Terminal} (h : readTerminal bound t s = .ok (xs, s'))
    (ht : t.plain = true) (hs : s.place.Within code) : ∀ x ∈ xs, Sound code x := by
  have hstart := hs.advance (markLength s.place)
  obtain ⟨hinked, hsorts⟩ := Bool.and_eq_true_iff.mp ht
  -- a terminal reads nothing, comments alone, or comments and one token: in that order below
  rcases readTerminal_cases h with ⟨-, rfl, -⟩ | ⟨lines, steps, ⟨-, rfl, -⟩ |
    ⟨kind, named, size, hsize, hscan, rfl, -⟩⟩
  · exact fun x hx => by cases hx
  · exact extras_sound _ _ hstart
  · intro x hx
    rcases List.mem_append.mp hx with hx | hx
    · exact extras_sound _ _ hstart x hx
    · have hfound := hstart.leads (extras_leads lines steps _)
      -- what kind of token it is follows from its form, which the terminal lists among its sorts
      have hkind : isCodeKind kind = true :=
        (Bool.and_eq_true_iff.mp (List.all_eq_true.mp hsorts _ (Form.scan_sorts hscan))).1
      have hleaf : Leaf code (Place.leaf _ kind named size) :=
        leaf_found (Form.scan_found hscan hinked hsize) hsize hkind hfound
      rw [List.mem_singleton.mp hx]
      exact ⟨(isExtra_of_isCodeKind (n := Place.leaf _ kind named size) hkind).2, fun _ => rfl, fun _ => hleaf⟩

/-- Constructs have parts, and terminals are leaves. -/
theorem passes_sound (code : Bytes) : table.Passes admitted (fun s => s.place.Within code) (Sound code) where
  role n role h := by
    -- marking a role changes neither the bytes nor the children, so the three kinds of leaf stay what they were
    cases n
    exact ⟨h.mark, h.childless, fun hnil => by
      cases h.leaf hnil with
      | comment hcomment hstart hstop => exact .comment hcomment hstart hstop
      | feed hcode hfeed hstop => exact .feed hcode hfeed hstop
      | token hcode hstart hstop => exact .token hcode hstart hstop⟩
  leaf h ht hs := ⟨fun x hx => ⟨(readTerminal_sorted h x hx).1, readTerminal_sound h ht hs x hx⟩,
    hs.leads (readTerminal_leads h)⟩
  construct {kind _ _ _ xs _ first rest} hkind _ _ _ hxs hdrop := by
    -- a node made by a rule has its first part as a child, so it is no leaf and no comment
    have hfirst : first ∈ xs :=
      (List.dropWhile_sublist _).subset (hdrop ▸ List.mem_cons_self : first ∈ xs.dropWhile isExtra)
    have hcode := isExtra_of_isCodeKind (n := covering kind first rest) hkind.1
    have hpart : first ∈ (covering kind first rest).children :=
      List.mem_filter.mpr ⟨List.mem_cons_self, by rw [(hxs first hfirst).mark]; rfl⟩
    refine ⟨hcode.2, fun hcomment => ?_, fun hnil => ?_⟩
    · rw [isExtra, hcomment] at hcode
      cases hcode.1
    · rw [hnil] at hpart
      cases hpart

/-! ### The leaves of a source -/

/-- The nodes without parts, in order. -/
def leaves (xs : List Node) : List Node := (Node.preorderAll xs).filter (·.children.isEmpty)

theorem leaves_cons (n : Node) (rest : List Node) : leaves (n :: rest) = leaves [n] ++ leaves rest := by
  simp only [leaves, Node.preorderAll, List.filter_append, List.append_nil]

/-- The leaves of a node are itself, or those of its parts. -/
theorem leaves_node (n : Node) : leaves [n] = if n.children = [] then [n] else leaves n.children := by
  obtain ⟨label, children⟩ := n
  cases children <;> simp [leaves, Node.preorderAll, Node.preorder, Node.children]

/-- Nodes are laid like the leaves of each of them. -/
theorem laid_of_leaves (h : Laid code a xs b)
    (hall : ∀ x ∈ xs, Laid code x.start (leaves [x]) x.stop) : Laid code a (leaves xs) b := by
  induction xs generalizing a with
  | nil => exact h
  | cons n rest ih =>
    rw [leaves_cons]
    exact ((hall n List.mem_cons_self).from_gap h.1).append
      (ih h.2.2 fun x hx => hall x (List.mem_cons_of_mem n hx))

/-- **The leaves of nodes that are placed are laid.** -/
theorem laid_leaves (h : Placed code a xs b) : Laid code a (leaves xs) b := by
  have hnode (n : Node) : (∀ m ∈ n.preorder, Fine code m) → n.start < n.stop →
      Laid code n.start (leaves [n]) n.stop := by
    -- from the parts of a node to the node
    induction n using Node.induction with
    | _ n ih =>
      intro hfine hsize
      rw [leaves_node]
      split
      · exact ⟨.refl _ _, hsize, .refl _ _⟩
      · rename_i hparts
        have hlaid := (hfine n (mem_preorder.mpr (.inl rfl))).children.resolve_left hparts
        exact laid_of_leaves hlaid fun c hc =>
          ih c hc (fun m hm => hfine m (mem_preorder.mpr (.inr ⟨c, hc, hm⟩))) (hlaid.mem hc).2.1
  exact laid_of_leaves h.laid fun x hx => hnode x (h.fine x hx) (h.laid.mem hx).2.1

/-- All of a source is read. -/
theorem stop_of_parse {root : Node} (h : parse code = .ok root) : root.stop = code.length := by
  obtain ⟨s, hyields, -, -, hstop⟩ := yields_of_parse h
  have hwithin := (hyields.placed admitted_covers (fun kind a h => by rintro rfl; cases h.1)
    readTerminal_placed (admitted_covers _) (Place.Within.origin code)).2
  generalize root.children = nodes at hyields
  -- the last terminal is the end of the source
  cases hyields with
  | seq _ hrest => cases hrest with
    | seq _ hlast => cases hlast with
      | term hfinish =>
        have hend : s.place.rest = [] := by
          simp only [table, lexis, readTerminal] at hfinish
          split at hfinish
          · rename_i hempty
            cases hfinish
            exact List.isEmpty_iff.mp hempty
          · cases hfinish
        have hlength := hwithin.length_rest
        have hbounded := hwithin.bounded
        rw [hend, List.length_nil] at hlength
        rw [hstop]
        omega

/-- **A source is made up of its leaves.** -/
theorem leaves_of_parse {root : Node} (h : parse code = .ok root) :
    Laid code 0 (leaves root.children) code.length ∧ (∀ x ∈ leaves root.children, Leaf code x) ∧
      root.preorder.filter (·.isComment) = (leaves root.children).filter (·.isComment) := by
  obtain ⟨s, hyields, hkind, hstart, -⟩ := yields_of_parse h
  have hlaid := laid_leaves (placed_of_parse h).2.1
  have hsound := (hyields.holds (passes_sound code) admitted_covers (admitted_covers _)
    (Place.Within.origin code)).1
  rw [hstart, stop_of_parse h] at hlaid
  refine ⟨hlaid, fun x hx => ?_, ?_⟩
  · obtain ⟨hmem, hempty⟩ := List.mem_filter.mp hx
    obtain ⟨y, hy, hx⟩ := mem_preorderAll.mp hmem
    exact (hsound y hy x hx).leaf (List.isEmpty_iff.mp hempty)
  · -- neither the root nor a construct is a comment
    obtain ⟨label, children⟩ := root
    have hroot : (Node.mk label children).isComment = false := by rw [Node.isComment, hkind]; rfl
    rw [Node.preorder, List.filter_cons, if_neg (by rw [hroot]; decide), leaves, List.filter_filter]
    refine List.filter_congr fun n hn => ?_
    obtain ⟨y, hy, hn⟩ := mem_preorderAll.mp hn
    cases hcomment : n.isComment with
    | false => rfl
    | true => rw [(hsound y hy n hn).childless hcomment]; rfl

/-! ### Comments and tokens -/

/-- Where the tokens of a source stand: the leaves besides the comments and the line feeds. -/
def tokenSpans (t : SourceTree) : List (Nat × Nat) :=
  ((leaves t.root.children).filter fun n => !n.isComment && t.code.inkAt n.start).map fun n => (n.start, n.stop)

/-- The texts of the tokens of a source. -/
def tokenTexts (t : SourceTree) : List Bytes := (tokenSpans t).map fun s => t.code.slice s.1 s.2

/-- The comments of a source are leaves. -/
theorem commentSpans_of_parse {t : SourceTree} (h : parse t.code = .ok t.root) :
    t.commentSpans = ((leaves t.root.children).filter (·.isComment)).map fun n => (n.start, n.stop) := by
  have hkinds : (fun m : Node => ["comment"].contains m.kind) = fun m => m.isComment := by
    funext m
    rw [List.contains_cons, List.contains_nil, Bool.or_false, Node.isComment]
  rw [SourceTree.commentSpans, Node.findAll, walk_eq, hkinds, (leaves_of_parse h).2.2]

/-- Ink is in one of the nodes that are laid, unless it begins the source. -/
theorem ink_of_laid (h : Laid code a xs b) (hai : a ≤ i) (hib : i < b) (hink : code.inkAt i = true)
    (ha : a ≠ 0 ∨ ∃ n ∈ xs, n.start ≤ i) : ∃ n ∈ xs, n.start ≤ i ∧ i < n.stop := by
  -- a gap is blank except at the very start of the file, where a byte order mark may stand
  have hgap {a b : Nat} (hgap : Gap code a b) (ha : a ≠ 0) (hai : a ≤ i) : b ≤ i := by
    by_contra hib
    rw [Bytes.blank_slice_iff.mp (hgap.blank.resolve_left ha) i hai (by omega)] at hink
    cases hink
  -- induction on the nodes of the row: the byte is in the first one or behind its end
  induction xs generalizing a with
  | nil =>
    have hle := hgap h (ha.resolve_right fun ⟨n, hn, _⟩ => by cases hn) hai
    omega
  | cons n rest ih =>
    obtain ⟨hfirst, hsize, hrest⟩ := h
    have hstart : n.start ≤ i := by
      rcases ha with ha | ⟨m, hm, hmi⟩
      · exact hgap hfirst ha hai
      · rcases List.mem_cons.mp hm with rfl | hm
        · exact hmi
        · have := hrest.mem hm
          omega
    by_cases hin : i < n.stop
    · exact ⟨n, List.mem_cons_self, hstart, hin⟩
    -- behind the first node the start of the file is far, and `ha` holds of the rest by its left side
    · obtain ⟨m, hm, hplace⟩ := ih hrest (by omega) (.inl (by omega))
      exact ⟨m, List.mem_cons_of_mem n hm, hplace⟩

/-- **The comments of a source are apart**, and none of them ends with a line feed. -/
theorem commented_of_parse {t : SourceTree} (h : parse t.code = .ok t.root) :
    t.code.Commented t.commentSpans := by
  obtain ⟨hlaid, hleaf, -⟩ := leaves_of_parse h
  rw [commentSpans_of_parse h]
  have hcomment (n : Node) (hn : n ∈ (leaves t.root.children).filter (·.isComment)) :
      (n.start < n.stop ∧ n.stop ≤ t.code.length) ∧ t.code[n.start]? = some 0x2f ∧
        (t.code.inkAt (n.stop - 1) = true ∨
          (∀ i, n.start ≤ i → i < n.stop → t.code[i]? ≠ some Bytes.newline) ∧
            ∀ x, t.code[n.stop]? = some x → x = 0 ∨ x = Bytes.newline) := by
    obtain ⟨hmem, hcomment⟩ := List.mem_filter.mp hn
    refine ⟨(hlaid.mem hmem).2, ?_⟩
    cases hleaf n hmem with
    | comment _ hstart hstop => exact ⟨hstart, hstop⟩
    | feed hcode => rw [hcode] at hcomment; cases hcomment
    | token hcode => rw [hcode] at hcomment; cases hcomment
  constructor
  case toApart =>
    constructor
    case inside => exact List.forall_mem_map.mpr fun n hn => (hcomment n hn).1
    case ink =>
      refine List.forall_mem_map.mpr fun n hn => ?_
      rw [Bytes.inkAt, (hcomment n hn).2.1]
      rfl
    case fenced =>
      refine List.pairwise_map.mpr ((hlaid.pairwise.filter _).imp_of_mem fun {m n} hm hn hle => ?_)
      obtain ⟨⟨hsize, -⟩, -, hends⟩ := hcomment m hm
      obtain ⟨⟨hsize', hlength⟩, hslash, -⟩ := hcomment n hn
      rcases hends with hlast | ⟨-, hnext⟩
      · exact ⟨m.stop - 1, Bytes.boundAt_of_inkAt hlast, by dsimp only; omega, by dsimp only; omega⟩
      · -- a line feed or a zero byte follows, with which the other comment does not begin
        have hbyte : t.code[m.stop]? = some t.code[m.stop] := List.getElem?_eq_getElem (by omega)
        have hx := hnext _ hbyte
        refine ⟨m.stop, ?_, Nat.le_succ _, Nat.lt_of_le_of_ne hle fun (heq : m.stop = n.start) => ?_⟩
        · rw [Bytes.boundAt, hbyte]
          rcases hx with hx | hx <;> rw [hx] <;> rfl
        · rw [← heq, hbyte, Option.some.injEq] at hslash
          rw [hslash] at hx
          rcases hx with hx | hx <;> exact absurd hx (by decide)
  case closed =>
    exact List.forall_mem_map.mpr fun n hn => (hcomment n hn).2.2.imp id And.left

/-- **The tokens of a source are all its code** outside of comments. -/
theorem tokens_of_parse {t : SourceTree} (h : parse t.code = .ok t.root) :
    t.code.Tokens t.commentSpans (tokenSpans t) := by
  obtain ⟨hlaid, hleaf, -⟩ := leaves_of_parse h
  rw [commentSpans_of_parse h, tokenSpans]
  have htoken (n : Node) (hn : n ∈ (leaves t.root.children).filter fun n => !n.isComment && t.code.inkAt n.start) :
      n ∈ leaves t.root.children ∧ n.isComment = false ∧ t.code.inkAt n.start = true := by
    obtain ⟨hmem, hcode⟩ := List.mem_filter.mp hn
    rw [Bool.and_eq_true, Bool.not_eq_true'] at hcode
    exact ⟨hmem, hcode⟩
  constructor
  case size => exact List.forall_mem_map.mpr fun n hn => (hlaid.mem (htoken n hn).1).2.1
  case ordered => exact List.pairwise_map.mpr (hlaid.pairwise.filter _)
  case first => exact List.forall_mem_map.mpr fun n hn => (htoken n hn).2.2
  case last =>
    refine List.forall_mem_map.mpr fun n hn => ?_
    obtain ⟨hmem, hcode, hink⟩ := htoken n hn
    cases hleaf n hmem with
    | comment hcomment => rw [hcode] at hcomment; cases hcomment
    | feed _ hfeed =>
      rw [Bytes.inkAt, hfeed] at hink
      cases hink
    | token _ _ hstop => exact hstop
  case outside =>
    refine List.forall_mem_map.mpr fun n hn i hlow hhigh => ?_
    obtain ⟨hmem, hcode, -⟩ := htoken n hn
    rw [← Bool.not_eq_true, Bytes.covered_iff]
    rintro ⟨r, hr, hlow', hhigh'⟩
    obtain ⟨m, hm, rfl⟩ := List.mem_map.mp hr
    obtain ⟨hmem', hcomment⟩ := List.mem_filter.mp hm
    -- a token and a comment are two leaves
    rcases Bytes.pairwise_cases hlaid.pairwise hmem hmem' with rfl | hle | hle
    · rw [hcode] at hcomment
      cases hcomment
    · dsimp only at hhigh hlow'
      omega
    · dsimp only at hlow hhigh'
      omega
  case all =>
    refine List.forall_mem_map.mpr fun n hn i hlow hcode => ?_
    obtain ⟨hink, hout⟩ := Bytes.codeAt_iff.mp hcode
    obtain ⟨m, hm, hlow', hhigh'⟩ := ink_of_laid hlaid (Nat.zero_le i)
      (Bytes.lt_length_of_boundAt (Bytes.boundAt_of_inkAt hink)) hink (.inr ⟨n, (htoken n hn).1, hlow⟩)
    have hcomment : m.isComment = false := by
      by_contra hcomment
      rw [Bool.not_eq_false] at hcomment
      rw [Bytes.covered_iff.mpr ⟨_, List.mem_map_of_mem (List.mem_filter.mpr ⟨hm, hcomment⟩), hlow', hhigh'⟩]
        at hout
      cases hout
    refine Bytes.covered_iff.mpr ⟨_, List.mem_map_of_mem (List.mem_filter.mpr ⟨hm, ?_⟩), hlow', hhigh'⟩
    rw [hcomment]
    cases hleaf m hm with
    | comment hcomment' => rw [hcomment] at hcomment'; cases hcomment'
    | feed _ hfeed hstop =>
      -- the line feed of a statement is no ink
      rw [show i = m.start by omega, Bytes.inkAt, hfeed] at hink
      cases hink
    | token _ hstart => exact hstart

/-- **Tokens stay when comments go.**  The step that takes all comments leaves the tokens of a source in their
    order, and white space between two of them where there was white space besides comments.  So it joins
    two tokens only if they touched, or if nothing but comments was between them. -/
theorem tokens_stay {t : SourceTree} (h : parseTree code = .ok t) (step : MinifyStep)
    (hstep : step.bodies = false ∧ step.comments = true ∧ step.exported = true) :
    Returns (strip t step) fun t' => ∃ gaps : List Bytes,
      gaps.length = (tokenSpans t).length + 1 ∧ (∀ g ∈ gaps.tail, Bytes.blank g = true) ∧
        t'.code = Bytes.interleave gaps (tokenTexts t) ∧
        ∀ n s s', (tokenSpans t)[n]? = some s → (tokenSpans t)[n + 1]? = some s' →
          ∃ gap, gaps[n + 1]? = some gap ∧ Bytes.Parts code t.commentSpans s.2 s'.1 gap := by
  obtain ⟨hcode, hclean⟩ := parseTree_reads code t h
  have hparse := parse_of_fresh (parseTree_reads.fresh code t h)
  have hcomments := commented_of_parse hparse
  -- the gaps of the source itself say what stays between two tokens, whatever the step removes
  obtain ⟨gaps, hlength, hblank, hleft, hparts⟩ := (tokens_of_parse hparse).gaps hcomments
  intro t' ht'
  -- with exported declarations included, this step is nothing but dropping all comments
  have hstrip : strip t step = t.dropComments.reparse parseTree := by
    unfold strip stripComments
    simp [hstep]
  rw [hstrip] at ht'
  rw [reparse_code parseTree_reads t' ht', render_dropComments (by simpa [EditSet.dirty] using hclean)
    hcomments.toApart, hleft]
  rw [hcode] at hparts
  exact ⟨gaps, hlength, hblank, rfl, hparts⟩

/-- A comment with white space around it. -/
theorem tokens_stay_of_a_comment :
    let step : MinifyStep := { name := "all-comments", comments := true, exported := true }
    ∃ t t', parseTree (Text.encode "package a\n\nvar x /* b */ int\n") = .ok t ∧
      strip t step = .ok t' ∧ t'.code = Text.encode "package a\n\nvar x  int\n" ∧
      ∃ gaps : List Bytes, gaps.length = 6 ∧ t'.code = Bytes.interleave gaps (tokenTexts t) ∧
        ∃ gap, gaps[4]? = some gap ∧ gap ≠ [] := by
  intro step
  have hall : (parseTree (Text.encode "package a\n\nvar x /* b */ int\n")).toOption.any (fun t =>
      tokenSpans t == [(0, 7), (8, 9), (11, 14), (15, 16), (25, 28)] &&
        t.commentSpans == [(17, 24)] &&
        (strip t step).toOption.any (·.code == Text.encode "package a\n\nvar x  int\n")) = true := by
    decide +kernel
  obtain ⟨t, hparse, ht⟩ := exists_of_any hall
  simp only [Bool.and_eq_true, beq_iff_eq] at ht
  obtain ⟨⟨htokens, hcomments⟩, hstripped⟩ := ht
  obtain ⟨t', hstrip, ht'⟩ := exists_of_any hstripped
  obtain ⟨gaps, hlength, -, hleft, hparts⟩ := tokens_stay hparse step ⟨rfl, rfl, rfl⟩ t' hstrip
  have hcode := (parseTree_reads _ t hparse).1
  rw [htokens] at hlength hparts
  obtain ⟨gap, hgap, hpart⟩ := hparts 3 _ _ rfl rfl
  refine ⟨t, t', hparse, hstrip, by simpa using ht', gaps, hlength, hleft, gap, hgap, fun hnil => ?_⟩
  -- a space stands before the comment
  have hspace := hpart.nothing.mp hnil 16 (Nat.le_refl 16) (by decide)
  rw [hcomments] at hspace
  cases hspace

/-- **A comment that alone parts two tokens joins them when it goes.** -/
theorem tokens_joined :
    let step : MinifyStep := { name := "all-comments", comments := true, exported := true }
    ∃ t t', parseTree (Text.encode "package a\n\nvar x/**/int = 1\n") = .ok t ∧ strip t step = .ok t' ∧
      tokenTexts t = ["package", "a", "var", "x", "int", "=", "1"].map Text.encode ∧
      t'.code = Text.encode "package a\n\nvar xint = 1\n" ∧
      tokenTexts t' = ["package", "a", "var", "xint", "=", "1"].map Text.encode := by
  intro step
  have hall : (parseTree (Text.encode "package a\n\nvar x/**/int = 1\n")).toOption.any (fun t =>
      tokenTexts t == ["package", "a", "var", "x", "int", "=", "1"].map Text.encode &&
        (strip t step).toOption.any fun t' => t'.code == Text.encode "package a\n\nvar xint = 1\n" &&
          tokenTexts t' == ["package", "a", "var", "xint", "=", "1"].map Text.encode) = true := by
    decide +kernel
  obtain ⟨t, hparse, ht⟩ := exists_of_any hall
  simp only [Bool.and_eq_true, beq_iff_eq] at ht
  obtain ⟨t', hstrip, ht'⟩ := exists_of_any ht.2
  simp only [Bool.and_eq_true, beq_iff_eq] at ht'
  exact ⟨t, t', hparse, hstrip, ht.1, ht'⟩

end Docsmith.Go
