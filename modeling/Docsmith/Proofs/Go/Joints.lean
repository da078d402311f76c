import Docsmith.Proofs.Go.Comments
import Docsmith.Proofs.Go.Groups
import Docsmith.Proofs.Go.Moods

namespace Docsmith.Go

open Grammar

/-!
# Nodes of Go sources at joints

Every node begins and ends at joints of its source.  The members of a group begin where a statement has ended or the
group was opened, so that a comment may be put on a line of its own before each of them.

* `cleared`: what the grammar speaks of, with forms that tell how their tokens end.
* `Joined`: a node lies between joints, and code does not begin with a comment.
* `Exposed`: there are only white space and comments behind the end of a statement or an opening parenthesis.
* `exposed_specGroup`, `exposing_of_groupRule`: the members of a group begin at such joints.
* `joined_of_parse`, `exposed_of_parse`: the nodes of a parsed source, and the members of its groups.
-/

variable {code : Bytes} {s s' : State} {xs : List Node} {n : Node} {k : Mood} {bound : Bool} {t : Terminal}

/-! ### What the grammar speaks of -/

/-- Plain terminals with forms that tell how their tokens end, and constructs of code. -/
def cleared : Admitted Terminal Production Bool :=
  { admitted with terminal := fun t => t.plain = true ∧ t.form.clear = true }

theorem clear_terminals (p : Production) : (rule p).terminals.all (·.form.clear) = true := by
  cases p
  all_goals first | decide +kernel | (rename_i header; cases header <;> decide +kernel)

theorem cleared_covers (p : Production) : cleared.Covers (rule p) where
  terminals t ht := ⟨(admitted_covers p).terminals t ht, List.all_eq_true.mp (clear_terminals p) t ht⟩
  constructs := (admitted_covers p).constructs

/-- A token of the grammar is code. -/
theorem extra_of_scan {kind : String} {named : Bool} {size : Nat} {bytes : Bytes} (ht : cleared.terminal t)
    (hscan : t.form.scan bytes = some (kind, named, size)) {p : Place} :
    isExtra (p.leaf kind named size) = false := by
  have hsort := List.all_eq_true.mp (Bool.and_eq_true_iff.mp ht.1).2 _ (Form.scan_sorts hscan)
  exact (isExtra_of_isCodeKind (n := p.leaf kind named size) (Bool.and_eq_true_iff.mp hsort).1).1

/-! ### The ends of nodes -/

/-- The node lies between joints, and if it is code, no comment begins there.  The kind of a bare token is its text. -/
structure Joined (code : Bytes) (n : Node) : Prop where
  start : ∃ k, Joint code k n.start
  stop : ∃ k, Joint code k n.stop
  bare : n.isComment = false → commentLength (code.drop n.start) = 0
  spelled : n.named = false → n.children = [] → Text.encode n.kind <+: code.drop n.start

/-- A form finds a bare token of its text. -/
theorem Form.scan_spelled {form : Form} {kind : String} {size : Nat} {bytes : Bytes}
    (h : form.scan bytes = some (kind, false, size)) : Text.encode kind <+: bytes := by
  -- an unnamed token is a word, a symbol or a statement's end; the other forms only make named ones
  cases form with
  | word text =>
    simp only [Form.scan] at h
    split at h
    · rename_i hfound
      cases h
      rw [Bool.and_eq_true, beq_iff_eq] at hfound
      rw [← hfound.2]
      exact List.take_prefix _ _
    · cases h
  | name kind' reserved =>
    simp only [Form.scan] at h
    split at h <;> cases h
  | symbol accepted rivals =>
    simp only [Form.scan] at h
    split at h
    · rename_i text hfound
      split at h
      · cases h
        exact List.prefix_iff_eq_take.mpr (take_of_startsWith (startsWith_of_longestOf hfound)).symm
      · cases h
    · cases h
  | terminator =>
    cases bytes with
    | nil => cases h
    | cons b rest =>
      simp only [Form.scan] at h
      -- a line feed, a semicolon or the end of the file: each is spelled by the byte it was found at
      split_ifs at h with hfeed hsemicolon hzero <;> cases h
      · rw [beq_iff_eq.mp hfeed]
        exact ⟨rest, rfl⟩
      · rw [beq_iff_eq.mp hsemicolon]
        exact ⟨rest, rfl⟩
      · rw [beq_iff_eq.mp hzero]
        exact ⟨rest, rfl⟩
  | _ => cases h

/-- The comments before a token lie between joints. -/
theorem Skims.joined {lines : Bool} {p q : Place} (h : Skims lines p xs q) (hp : p.Within code)
    (hk : Joint code k p.offset) : ∀ x ∈ xs, Joined code x := by
  induction h generalizing k with
  | stop => exact fun x hx => by cases hx
  | @blank p q xs b rest hrest hblank _ ih =>
    exact ih (hp.advance 1) (joint_blank hp hk hrest (Bool.and_eq_true_iff.mp hblank).1)
  | @comment p q xs hcomment _ ih =>
    have hnext := joint_comment hp hk hcomment
    intro x hx
    rcases List.mem_cons.mp hx with rfl | hx
    · exact ⟨⟨_, hk⟩, ⟨_, hnext⟩, nofun, nofun⟩
    · exact ih (hp.advance _) hnext x hx

/-- So does what a terminal is read as. -/
theorem Terminal.Reads.joined (h : t.Reads code bound k s xs s') (hs : Stands code k s) :
    (∀ x ∈ xs, Joined code x) ∧ ∃ k', Stands code k' s' := by
  have hentry : (entry s.place).Within code := hs.within.advance _
  cases h with
  | sameLine => exact ⟨List.forall_mem_nil _, k, hs⟩
  | finish _ h hstands => exact ⟨h.skims.joined hentry hs.joint, _, hstands⟩
  -- the comments before the token stand in joints too; the token itself stands between `k₁` and `k'`
  | @token ys p k₁ k' kind named size trail h hscan hsize _ hcross hstands =>
    refine ⟨fun x hx => ?_, _, hstands⟩
    rcases List.mem_append.mp hx with hx | hx
    · exact h.skims.joined hentry hs.joint x hx
    · rw [List.mem_singleton.mp hx]
      have hlength := hcross.joint.le_length
      have hoffset : (p.advance size).offset = p.offset + size := by
        rw [Place.offset_advance, h.within.length_rest, Nat.min_eq_left (by omega)]
      refine ⟨⟨k₁, h.joint⟩, ⟨k', by show Joint code k' (p.advance size).offset; rw [hoffset]; exact hcross.joint⟩,
        fun _ => h.bare, fun (hnamed : named = false) _ => ?_⟩
      subst hnamed
      exact Form.scan_spelled hscan

/-- The state stands at a joint. -/
def Halts (code : Bytes) (s : State) : Prop := ∃ k, Stands code k s

/-! ### The members of groups -/

/-- There are only white space and comments between the end of a statement, or an opening parenthesis, and the
    offset. -/
def Exposed (code : Bytes) (o : Nat) : Prop := ∃ k, Joint code k o ∧ k.exposed = true

/-- The state stands at such a joint. -/
def Ready (code : Bytes) (s : State) : Prop := ∃ k, Stands code k s ∧ k.exposed = true

/-- The first token that is read there begins at such a joint. -/
theorem fronted_terminal (h : readTerminal bound t s = .ok (xs, s')) (ht : cleared.terminal t)
    (hs : Ready code s) : Fronted (Ready code) (Exposed code) xs s' := by
  obtain ⟨k, hk, hexposed⟩ := hs
  have hextras {lines : Bool} {p q : Place} {ys : List Node} (h : Skims lines p ys q) : ∀ x ∈ ys, isExtra x = true := by
    induction h with
    | stop => exact List.forall_mem_nil _
    | blank _ _ _ ih => exact ih
    | comment _ _ ih => exact List.forall_mem_cons.mpr ⟨rfl, ih⟩
  cases readTerminal_reads h ht.2 hk with
  | sameLine => exact .of_extras (List.forall_mem_nil _) ⟨k, hk, hexposed⟩
  | finish _ hpassed hstands =>
    exact .of_extras (hextras hpassed.skims) ⟨_, hstands, hpassed.skimmed.exposed hexposed⟩
  | @token ys p k₁ _ _ _ _ _ hpassed hscan _ _ _ _ =>
    rw [Fronted, List.dropWhile_append_of_pos (hextras hpassed.skims),
      List.dropWhile_cons_of_neg (by simp [extra_of_scan ht hscan])]
    exact ⟨k₁, hpassed.joint, hpassed.skimmed.exposed hexposed⟩

/-- The productions of members. -/
def memberProductions : List Production := [.constSpec, .varSpec, .typeSpec]

/-- A member is one construct, with the comments in front of it. -/
theorem wrap_of_member {p : Production} (hp : p ∈ memberProductions) (h : table.Yields bound (the p) s xs s') :
    ∃ kind ys, isCodeKind kind = true ∧ xs = wrap kind ys := by
  simp only [memberProductions, List.mem_cons, List.not_mem_nil, or_false] at hp
  cases h with
  | call h =>
    rcases hp with rfl | rfl | rfl
    · cases h with | node h => exact ⟨_, _, by decide, rfl⟩
    · cases h with | node h => exact ⟨_, _, by decide, rfl⟩
    · cases h with
      | left h => cases h with | node h => exact ⟨_, _, by decide, rfl⟩
      | right h =>
        cases h with
        | left h => cases h with | node h => exact ⟨_, _, by decide, rfl⟩
        | right h => cases h with | node h => exact ⟨_, _, by decide, rfl⟩

/-- A member begins at an exposed joint if it is read at one. -/
theorem exposed_member {p : Production} (hp : p ∈ memberProductions) (h : table.Yields bound (the p) s xs s')
    (hs : Ready code s) (hn : n ∈ xs) (hspec : isSpec n = true) : Exposed code n.start := by
  -- every kind the grammar builds is code, so a member's node begins where its first token does
  have hkinds : ∀ kind r, cleared.construct kind r → isCodeKind kind = true := fun _ _ h => h.1
  have hfront : Fronted (Ready code) (Exposed code) xs s' :=
    h.front hkinds cleared_covers fronted_terminal ⟨fun t ht => (by cases ht), fun c hc => (by cases hc)⟩ hs
  obtain ⟨kind, ys, hkind, rfl⟩ := wrap_of_member hp h
  have hcode : isExtra n = false := by
    rw [← Bool.not_eq_true]
    exact fun hextra => by rw [isSpec_of_extra hextra] at hspec; cases hspec
  rw [wrap_eq] at hfront hn
  -- a member begins with a token: a row of comments alone would make it a comment
  cases hdrop : ys.dropWhile isExtra with
  | nil =>
    rw [hdrop] at hn
    rw [List.dropWhile_eq_nil_iff.mp hdrop n hn] at hcode
    cases hcode
  | cons first rest =>
    have hextras := List.all_eq_true.mp (List.all_takeWhile (p := isExtra) (l := ys))
    rw [hdrop] at hfront hn
    rcases List.mem_append.mp hn with hn | hn
    · rw [hextras n hn] at hcode
      cases hcode
    · rw [Fronted, List.dropWhile_append_of_pos hextras,
        List.dropWhile_cons_of_neg (by
          simp [(isExtra_of_isCodeKind (n := covering kind first rest) hkind).1])] at hfront
      rw [List.mem_singleton.mp hn]
      exact hfront

/-- The nodes that a rule yields are of some kinds, if a check of the rule admits no others. -/
theorem kind_of_emits {a : Phrase} (h : table.Yields bound a s xs s') (sort : String → Bool)
    (hsort : (table.emits leafSort 20 (fun kind _ _ => sort kind) a && sort "comment" && sort "line_continuation"
      && sort markKind) = true) (hn : n ∈ xs) : sort n.kind = true := by
  simp only [Bool.and_eq_true] at hsort
  obtain ⟨⟨⟨hemits, hcomment⟩, hjoint⟩, hmark⟩ := hsort
  rcases ofSort_of_yields h hemits n hn with hextra | hnone | hkind
  · rw [isExtra, Bool.or_eq_true, Node.isComment, beq_iff_eq, beq_iff_eq] at hextra
    rcases hextra with hextra | hextra <;> rwa [hextra]
  · rwa [beq_iff_eq.mp hnone]
  · exact hkind

/-- The kind is none of a member. -/
def isOther (kind : String) : Bool := !specKinds.contains kind

/-- The kind is none of a list of members. -/
def isUnlisted (kind : String) : Bool := !kind.endsWith "_spec_list"

/-- The kind is none of a parenthesis or a list of members. -/
def isFlat (kind : String) : Bool := kind != "(" && isUnlisted kind

/-- Behind an opening parenthesis the reader is ready for a member. -/
theorem flow_opening (bound : Bool) : moods.flow? bound Mood.all (sym "(") = some {.fresh} := by
  cases bound <;> decide +kernel

/-- Behind a member and the end of its line the reader is ready for a further one. -/
theorem flow_member {p : Production} (hp : p ∈ memberProductions) :
    (moods.flow? true {.line, .fresh} (.seq (the p) terminator)).any (· ⊆ {.line, .fresh}) = true := by
  simp only [memberProductions, List.mem_cons, List.not_mem_nil, or_false] at hp
  rcases hp with rfl | rfl | rfl <;> decide +kernel

/-- Members that are read one after another, each with the end of its line, begin at exposed joints. -/
theorem exposed_members {p : Production} (hp : p ∈ memberProductions)
    (h : table.Yields true (.many (.seq (the p) terminator)) s xs s') (hs : ∃ k ∈ ({.line, .fresh} : Finset Mood),
      Stands code k s) (hn : n ∈ xs) (hspec : isSpec n = true) : Exposed code n.start := by
  -- the induction is over the repetition, so its rule and its bound are kept as equations
  generalize hm : true = m at h
  generalize hrule : Rule.many (.seq (the p) terminator) = r at h
  induction h with
  | stop => cases hn
  | more hfirst _ _ ih =>
    cases hrule
    subst hm
    -- between two members stands a statement's end, so the next one begins a line or follows it fresh
    have hready : Ready code _ := hs.imp fun k hk => ⟨hk.2, by
      rcases Finset.mem_insert.mp hk.1 with rfl | hk
      · rfl
      · rw [Finset.mem_singleton.mp hk]
        rfl⟩
    obtain ⟨out, hflow, hsub⟩ := (Option.any_eq_true _ _).mp (flow_member hp)
    obtain ⟨k, hk, hstands⟩ := hfirst.flow moods_consistent readTerminal_mood hflow hs
    rcases List.mem_append.mp hn with hn | hn
    · cases hfirst with
      | seq hmember hend =>
        rcases List.mem_append.mp hn with hn | hn
        · exact exposed_member hp hmember hready hn hspec
        · have hnone := kind_of_emits hend isOther (by decide +kernel) hn
          rw [isOther, ← isSpec, hspec] at hnone
          cases hnone
    · exact ih ⟨k, of_decide_eq_true hsub hk, hstands⟩ hn rfl rfl
  | _ => cases hrule

/-- **The members of a group begin at exposed joints.** -/
theorem exposed_specGroup {p : Production} (hp : p ∈ memberProductions)
    (h : table.Yields bound (specGroup (the p)) s xs s') (hs : Halts code s) (hn : n ∈ xs) (hspec : isSpec n = true) :
    Exposed code n.start := by
  obtain ⟨k, hk⟩ := hs
  -- the two parentheses are no members, so a member of the row is one of the repetition
  have hother {ys : List Node} {s₁ s₂ : State} {bound : Bool} {text : String} (htext : text = "(" ∨ text = ")")
      (h : table.Yields bound (sym text) s₁ ys s₂) (hn : n ∈ ys) : False := by
    have hnone : isOther n.kind = true := by
      rcases htext with rfl | rfl <;> exact kind_of_emits h isOther (by decide +kernel) hn
    rw [isOther, ← isSpec, hspec] at hnone
    cases hnone
  cases h with
  | seq hopening hrest =>
    rcases List.mem_append.mp hn with hn | hn
    · exact (hother (.inl rfl) hopening hn).elim
    · cases hrest with
      | within hinner =>
        cases hinner with
        | seq hmany hclosing =>
          rcases List.mem_append.mp hn with hn | hn
          · obtain ⟨k', hk', hstands⟩ := hopening.flow moods_consistent readTerminal_mood (flow_opening bound)
              ⟨k, by cases k <;> decide, hk⟩
            exact exposed_members hp hmany ⟨k', by rw [Finset.mem_singleton.mp hk']; decide, hstands⟩ hn hspec
          · exact (hother (.inr rfl) hclosing hn).elim

/-- The members of a declaration behind a parenthesis begin at exposed joints. -/
def Exposing (code : Bytes) (decl : Node) : Prop :=
  ∀ m ∈ specs decl, (∃ paren ∈ m.1, isOpening paren = true) → Exposed code m.2.start

/-- The parts of a construct are among the nodes it is made of. -/
theorem mem_children_covering {kind : String} {first : Node} {rest : List Node}
    (hdrop : xs.dropWhile isExtra = first :: rest)
    (hn : n ∈ (covering kind first rest).children) : n ∈ xs := by
  have hmem : n ∈ xs.dropWhile isExtra := hdrop ▸ (List.mem_filter.mp hn).1
  exact (List.dropWhile_sublist _).subset hmem

/-- The members of a declaration whose parts come of a rule. -/
theorem exposing_of_yields {kind : String} {first : Node} {rest : List Node}
    (hdrop : xs.dropWhile isExtra = first :: rest)
    (hmembers : ∀ n ∈ xs, isSpec n = true → (∃ paren ∈ xs, isOpening paren = true) → Exposed code n.start)
    (hlists : ∀ list ∈ xs, list.kind.endsWith "_spec_list" = true → ∀ n ∈ list.children, isSpec n = true →
      Exposed code n.start) :
    Exposing code (covering kind first rest) := by
  -- a member stands in the declaration itself, or in the list below it
  intro m hm hparen
  rw [specs_def] at hm
  obtain ⟨⟨before, child⟩, hchild, hm⟩ := List.mem_flatMap.mp hm
  have hmem : child ∈ xs := mem_children_covering hdrop (mem_of_withBefore hchild)
  unfold membersAt at hm
  split at hm
  · rename_i hspec
    rw [List.mem_singleton.mp hm] at hparen ⊢
    refine hmembers child hmem hspec (hparen.imp fun paren hparen => ⟨?_, hparen.2⟩)
    exact mem_children_covering hdrop (mem_before hchild hparen.1)
  · split at hm
    · rename_i hlist
      obtain ⟨hm, hspec⟩ := List.mem_filter.mp hm
      exact hlists child hmem hlist m.2 (mem_of_withBefore hm) hspec
    · cases hm

/-- A word leads from joint to joint. -/
theorem halts_word {text : String} (h : table.Yields bound (word text) s xs s') (hs : Halts code s) :
    Halts code s' := by
  obtain ⟨k, hk⟩ := hs
  cases h with
  | term h =>
    have hread : readTerminal bound { form := .word text } s = .ok (xs, s') := h
    exact ((readTerminal_reads hread rfl hk).joined hk).2

/-- A declaration of a single member, without a parenthesis. -/
theorem exposing_of_flat {a : Phrase} {kind : String} {first : Node} {rest : List Node}
    (h : table.Yields bound a s xs s') (hsort : (table.emits leafSort 20 (fun kind _ _ => isFlat kind) a
      && isFlat "comment" && isFlat "line_continuation" && isFlat markKind) = true)
    (hdrop : xs.dropWhile isExtra = first :: rest) : Exposing code (covering kind first rest) := by
  have hflat (n : Node) (hn : n ∈ xs) : n.kind ≠ "(" ∧ n.kind.endsWith "_spec_list" = false := by
    simpa [isFlat, isUnlisted] using kind_of_emits h isFlat hsort hn
  refine exposing_of_yields hdrop (fun n _ _ ⟨paren, hmem, hparen⟩ => ?_) fun list hmem hlist => ?_
  · exact absurd (beq_iff_eq.mp hparen) (hflat paren hmem).1
  · rw [(hflat list hmem).2] at hlist
    cases hlist

/-- A declaration of members in parentheses. -/
theorem exposing_of_group {p : Production} {text kind : String} {first : Node} {rest : List Node}
    (hp : p ∈ memberProductions) (h : table.Yields bound (.seq (word text) (specGroup (the p))) s xs s')
    (hs : Halts code s) (hsort : (table.emits leafSort 20 (fun kind _ _ => isUnlisted kind)
      (.seq (word text) (specGroup (the p))) && isUnlisted "comment" && isUnlisted "line_continuation"
      && isUnlisted markKind) = true) (hword : (table.emits leafSort 20 (fun kind _ _ => isOther kind) (word text)
      && isOther "comment" && isOther "line_continuation" && isOther markKind) = true)
    (hdrop : xs.dropWhile isExtra = first :: rest) : Exposing code (covering kind first rest) := by
  -- the declaration's own parts: the keyword is none of the members, the rest is the parenthesised group
  refine exposing_of_yields hdrop (fun n hn hspec _ => ?_) fun list hmem hlist => ?_
  · cases h with
    | seq hfirst hgroup =>
      rcases List.mem_append.mp hn with hn | hn
      · have hother := kind_of_emits hfirst isOther hword hn
        rw [isOther, ← isSpec, hspec] at hother
        cases hother
      · exact exposed_specGroup hp hgroup (halts_word hfirst hs) hn hspec
  -- no list is among them: the members stand right below the declaration
  · have hnone := kind_of_emits h isUnlisted hsort hmem
    rw [isUnlisted, hlist] at hnone
    cases hnone

/-- A list of members among the nodes of a construct is the construct. -/
theorem covering_of_wrap {kind : String} {list : Node} (h : list ∈ wrap kind xs)
    (hlist : list.kind.endsWith "_spec_list" = true) :
    ∃ first rest, xs.dropWhile isExtra = first :: rest ∧ list = covering kind first rest := by
  -- a list is no comment, so it is the node that was built and not what was put before it
  have hextra : isExtra list = false := by
    rw [← Bool.not_eq_true]
    intro hextra
    rw [isExtra, Bool.or_eq_true, Node.isComment, beq_iff_eq, beq_iff_eq] at hextra
    rcases hextra with hextra | hextra
    · exact absurd hlist (by rw [hextra]; decide +kernel)
    · exact absurd hlist (by rw [hextra]; decide +kernel)
  rw [wrap_eq] at h
  cases hdrop : xs.dropWhile isExtra with
  | nil =>
    rw [hdrop] at h
    rw [List.dropWhile_eq_nil_iff.mp hdrop list h] at hextra
    cases hextra
  | cons first rest =>
    rw [hdrop] at h
    rcases List.mem_append.mp h with h | h
    · rw [List.all_eq_true.mp (List.all_takeWhile (p := isExtra) (l := xs)) list h] at hextra
      cases hextra
    · exact ⟨first, rest, rfl, List.mem_singleton.mp h⟩

/-- **The members of a group in a declaration begin at exposed joints.** -/
theorem exposing_of_groupRule {a : Phrase} {kind : String} {first : Node} {rest : List Node} (ha : GroupRule a)
    (h : table.Yields bound a s xs s') (hs : Halts code s) (hdrop : xs.dropWhile isExtra = first :: rest) :
    Exposing code (covering kind first rest) := by
  cases ha with
  | const =>
    cases h with
    | seq hword hrest =>
      cases hrest with
      | left hgroup =>
        exact exposing_of_group (by simp [memberProductions]) (.seq hword hgroup) hs (by decide +kernel)
          (by decide +kernel) hdrop
      | right hmember => exact exposing_of_flat (.seq hword hmember) (by decide +kernel) hdrop
  | type =>
    cases h with
    | seq hword hrest =>
      cases hrest with
      | left hgroup =>
        exact exposing_of_group (by simp [memberProductions]) (.seq hword hgroup) hs (by decide +kernel)
          (by decide +kernel) hdrop
      | right hmember => exact exposing_of_flat (.seq hword hmember) (by decide +kernel) hdrop
  | var =>
    cases h with
    | seq hword hrest =>
      cases hrest with
      -- variables in a group stand in a list of their own, whose members the parenthesised group gives
      | left hlist =>
        have hother := fun n (hn : n ∈ _) => kind_of_emits (n := n) (.seq hword hlist) isOther (by decide +kernel) hn
        refine exposing_of_yields hdrop (fun n hn hspec _ => ?_) fun list hmem hkind n hn hspec => ?_
        · have hnone := hother n hn
          rw [isOther, ← isSpec, hspec] at hnone
          cases hnone
        · rcases List.mem_append.mp hmem with hmem | hmem
          · have hnone := kind_of_emits hword isUnlisted (by decide +kernel) hmem
            rw [isUnlisted, hkind] at hnone
            cases hnone
          · cases hlist with
            | node hgroup =>
              obtain ⟨first, rest, hdrop, rfl⟩ := covering_of_wrap hmem hkind
              exact exposed_specGroup (by simp [memberProductions]) hgroup (halts_word hword hs)
                (mem_children_covering hdrop hn) hspec
      | right hmember => exact exposing_of_flat (.seq hword hmember) (by decide +kernel) hdrop

/-! ### The nodes of a source -/

/-- The node lies between joints, and the members of a group begin at exposed ones. -/
structure Settled (code : Bytes) (n : Node) : Prop extends Joined code n where
  members : groupKinds.contains n.kind = true → Exposing code n

theorem passes_settled (code : Bytes) : table.Passes cleared (Halts code) (Settled code) where
  role n role h := by
    cases n
    exact ⟨⟨h.start, h.stop, h.bare, h.spelled⟩, h.members⟩
  leaf {m t s xs s'} h ht hs := by
    obtain ⟨k, hk⟩ := hs
    obtain ⟨hall, hs'⟩ := (readTerminal_reads h ht.2 hk).joined hk
    refine ⟨fun x hx => ⟨(readTerminal_sorted h x hx).1, hall x hx, fun hgroup => ?_⟩, hs'⟩
    -- no token and no comment is a declaration
    rcases (readTerminal_sorted h x hx).2.2 with hcomment | hsort
    · rw [beq_iff_eq.mp hcomment.1] at hgroup
      cases hgroup
    · have hall := List.all_eq_true.mp (Bool.and_eq_true_iff.mp ht.1).2 _ hsort
      rw [Bool.and_eq_true, hgroup] at hall
      cases hall.2
  construct {kind _ _ _ xs _ first rest} hkind _ hs hyields hxs hdrop := by
    have hmem : ∀ x ∈ first :: rest, x ∈ xs := fun x hx => (List.dropWhile_sublist _).subset (hdrop ▸ hx)
    have hcode : isExtra first = false := by
      have hhead := List.head?_dropWhile_not isExtra xs
      rw [hdrop] at hhead
      simpa using hhead
    have hlast : (first :: rest).getLastD first ∈ first :: rest := by
      rw [List.getLastD_cons]
      exact List.getLastD_mem_cons
    refine ⟨⟨(hxs first (hmem first List.mem_cons_self)).start, (hxs _ (hmem _ hlast)).stop, fun _ => ?_, nofun⟩,
      fun hgroup => ?_⟩
    · refine (hxs first (hmem first List.mem_cons_self)).bare ?_
      rw [isExtra, Bool.or_eq_false_iff] at hcode
      exact hcode.1
    · exact exposing_of_groupRule (hkind.2 hgroup) hyields hs hdrop

/-- **The nodes of a parsed source** lie between joints. -/
theorem settled_of_parse {root x : Node} (h : parse code = .ok root) (hx : x ∈ root.children)
    (hn : n ∈ x.preorder) : Settled code n := by
  obtain ⟨s, hyields, -⟩ := yields_of_parse h
  exact (hyields.holds (passes_settled code) cleared_covers (cleared_covers _) ⟨_, stands_origin code⟩).1 x hx n hn

end Docsmith.Go
