import Docsmith.Proofs.Grammar.Lined
import Docsmith.Proofs.Source.Insertions
import Docsmith.Source.Line

namespace Docsmith.Grammar

/-!
# Trees of a source with comments inserted

When comments are inserted in front of some code, the tree of the source stays the same but for them.  Each of its
nodes has a counterpart, and the comments stand where nodes begin that begin with this code, in front of the outermost
one.

* `Heading`: comments stand directly above a place.
* `Grown`: a node and its counterpart.
* `Along`, `Parts`: nodes and their counterparts with the comments in front of each, the first of them with or without.
* `Along.append`, `Along.wrap`, `Along.gather`, `Along.assign`: how nodes are made of others.
-/

variable {code : Bytes} {is : Insertions code} {xs ys xs' ys' ns ns' news : List Node} {n n' : Node} {kind : String}

/-- The comments end directly above a place, which begins its line as the last of them does. -/
structure Heading (code : Bytes) (news : List Node) (o row : Nat) : Prop where
  startsLine : code.startsLine o = true
  last : ∃ c ∈ news.getLast?, code.startsLine c.start = true ∧ c.lastRow + 1 = row

/-- The comments that are inserted in front of an offset. -/
structure News (is : Insertions code) (o : Nat) (news : List Node) (o' row : Nat) : Prop where
  comments : ∀ c ∈ news, c.isComment = true ∧ c.named = true ∧ c.role = ""
  none : (∀ e ∈ is.all, e.target ≠ o) → news = []
  heading : (∃ e ∈ is.all, e.target = o) → Heading is.result news o' row

/-- Nodes have counterparts, and in front of each of these stand the comments that are inserted there. -/
inductive Along (is : Insertions code) (R : Node → Node → Prop) : List Node → List Node → Prop
  | nil : Along is R [] []
  | cons {n n' : Node} {news ns ns' : List Node} (hnews : News is n.start news n'.start n'.row) (hnode : R n n')
      (h : Along is R ns ns') : Along is R (n :: ns) (news ++ n' :: ns')

/-- The parts of a construct have counterparts; the comments in front of the first one stand in front of the
    construct. -/
inductive Parts (is : Insertions code) (R : Node → Node → Prop) : List Node → List Node → Prop
  | nil : Parts is R [] []
  | cons {n n' : Node} {ns ns' : List Node} (hnode : R n n') (h : Along is R ns ns') : Parts is R (n :: ns) (n' :: ns')

/-- A node and its counterpart: they are the same but for the comments among their parts, and nothing is inserted in a
    node without parts. -/
inductive Grown (is : Insertions code) : Node → Node → Prop
  | mk {l l' : Label} {cs cs' : List Node} (hkind : l'.kind = l.kind) (hnamed : l'.named = l.named)
      (hrole : l'.role = l.role) (hmark : (l.kind == markKind) = false)
      (hstart : is.Behind l.extent.start l'.extent.start) (hstop : is.Before l.extent.stop l'.extent.stop)
      (hclean : cs = [] → ∀ e ∈ is.all, l.extent.start < e.start → l.extent.stop ≤ e.start)
      (hparts : Parts is (Grown is) cs cs') : Grown is (.mk l cs) (.mk l' cs')

namespace Grown

theorem kind_eq (h : Grown is n n') : n'.kind = n.kind := by cases h; assumption

theorem named_eq (h : Grown is n n') : n'.named = n.named := by cases h; assumption

theorem role_eq (h : Grown is n n') : n'.role = n.role := by cases h; assumption

theorem behind (h : Grown is n n') : is.Behind n.start n'.start := by cases h; assumption

theorem before (h : Grown is n n') : is.Before n.stop n'.stop := by cases h; assumption

theorem isExtra_eq (h : Grown is n n') : isExtra n' = isExtra n := by
  rw [isExtra, isExtra, Node.isComment, Node.isComment, h.kind_eq]

theorem isMark_eq (h : Grown is n n') : isMark n = false ∧ isMark n' = false := by
  rw [isMark, isMark, h.kind_eq]
  cases h
  exact ⟨‹_›, ‹_›⟩

theorem parts (h : Grown is n n') : Parts is (Grown is) n.children n'.children := by cases h; assumption

theorem clean (h : Grown is n n') (hparts : n.children = []) :
    ∀ e ∈ is.all, n.start < e.start → n.stop ≤ e.start := by
  cases h with
  | mk _ _ _ _ _ _ hclean _ => exact hclean hparts

/-- A role makes no difference. -/
theorem withRole (h : Grown is n n') (role : String) : Grown is (n.withRole role) (n'.withRole role) := by
  cases h with
  | mk hkind hnamed _ hmark hstart hstop hclean hparts => exact .mk hkind hnamed rfl hmark hstart hstop hclean hparts

end Grown

theorem isExtra_of_news {o o' row : Nat} (h : News is o news o' row) : ∀ c ∈ news, isExtra c = true := fun c hc => by
  rw [isExtra, (h.comments c hc).1, Bool.true_or]

namespace Along

variable {R : Node → Node → Prop}

theorem append (h : Along is R xs xs') (h' : Along is R ys ys') : Along is R (xs ++ ys) (xs' ++ ys') := by
  induction h with
  | nil => exact h'
  | cons hnews hnode _ ih =>
    rw [List.append_assoc, List.cons_append, List.cons_append]
    exact .cons hnews hnode ih

/-- No counterparts are missing, and there are none of nothing. -/
theorem eq_nil_iff (h : Along is R xs xs') : xs = [] ↔ xs' = [] := by
  cases h with
  | nil => exact Iff.rfl
  | cons => simp

end Along

/-! ### How nodes are made of others -/

theorem wrap_extra (h : isExtra n = true) (kind : String) (ns : List Node) :
    wrap kind (n :: ns) = n :: wrap kind ns := by
  unfold wrap
  rw [List.dropWhile_cons_of_pos h, List.takeWhile_cons_of_pos h]
  cases ns.dropWhile isExtra <;> rfl

theorem wrap_code (h : isExtra n = false) (kind : String) (ns : List Node) :
    wrap kind (n :: ns) = [covering kind n ns] := by
  rw [wrap_eq, List.dropWhile_cons_of_neg (by simp [h]), List.takeWhile_cons_of_neg (by simp [h])]
  rfl

theorem gather_extra (h : isExtra n = true) (kind : String) (ns : List Node) :
    gather kind (n :: ns) = n :: gather kind ns := by
  have hwrap := wrap_extra h kind ns
  unfold gather
  rw [List.dropWhile_cons_of_pos h]
  split
  · rfl
  · exact hwrap

theorem gather_code (h : isExtra n = false) (kind : String) (ns : List Node) :
    gather kind (n :: ns) = if ns = [] then [n] else [covering kind n ns] := by
  have hwrap := wrap_code h kind ns
  unfold gather
  rw [List.dropWhile_cons_of_neg (by simp [h])]
  cases ns with
  | nil => rfl
  | cons m ns => exact hwrap

/-- Comments in front stay there. -/
theorem append_of_extras {f : List Node → List Node} (hf : ∀ n ns, isExtra n = true → f (n :: ns) = n :: f ns)
    (h : ∀ c ∈ news, isExtra c = true) (ns : List Node) : f (news ++ ns) = news ++ f ns := by
  induction news with
  | nil => rfl
  | cons c news ih =>
    rw [List.cons_append, hf _ _ (h c List.mem_cons_self), ih fun x hx => h x (List.mem_cons_of_mem c hx)]
    rfl

namespace Along

/-- The last of some nodes has a counterpart, which is the last, too. -/
theorem getLastD (h : Along is (Grown is) ns ns') (hnode : Grown is n n') :
    Grown is (ns.getLastD n) (ns'.getLastD n') := by
  induction h generalizing n n' with
  | nil => exact hnode
  | @cons m m' news ns ns' _ hm _ ih =>
    have hlast : (news ++ m' :: ns').getLastD n' = ns'.getLastD m' := by
      simp only [List.getLastD_eq_getLast?, List.getLast?_append, List.getLast?_cons, Option.some_or, Option.getD_some]
    rw [List.getLastD_cons, hlast]
    exact ih hm

/-- There are no marks among them. -/
theorem unmarked (h : Along is (Grown is) ns ns') : (∀ x ∈ ns, isMark x = false) ∧ ∀ x ∈ ns', isMark x = false := by
  induction h with
  | nil => exact ⟨List.forall_mem_nil _, List.forall_mem_nil _⟩
  | @cons n n' news ns ns' hnews hnode _ ih =>
    refine ⟨fun x hx => ?_, fun x hx => ?_⟩
    · rcases List.mem_cons.mp hx with rfl | hx
      · exact hnode.isMark_eq.1
      · exact ih.1 x hx
    · rcases List.mem_append.mp hx with hx | hx
      · rw [isMark, beq_iff_eq.mp (hnews.comments x hx).1]
        rfl
      · rcases List.mem_cons.mp hx with rfl | hx
        · exact hnode.isMark_eq.2
        · exact ih.2 x hx

/-- A construct has as its counterpart that of the counterparts. -/
theorem covering (hkind : isCodeKind kind = true) (hnode : Grown is n n') (h : Along is (Grown is) ns ns') :
    Grown is (covering kind n ns) (covering kind n' ns') := by
  obtain ⟨hmarks, hmarks'⟩ := h.unmarked
  have hall : (n :: ns).filter (!isMark ·) = n :: ns := List.filter_eq_self.mpr fun x hx => by
    rcases List.mem_cons.mp hx with rfl | hx
    · simp [hnode.isMark_eq.1]
    · simp [hmarks x hx]
  have hall' : (n' :: ns').filter (!isMark ·) = n' :: ns' := List.filter_eq_self.mpr fun x hx => by
    rcases List.mem_cons.mp hx with rfl | hx
    · simp [hnode.isMark_eq.2]
    · simp [hmarks' x hx]
  have hlast := h.getLastD hnode
  rw [Grammar.covering, Grammar.covering, hall, hall', List.getLastD_cons, List.getLastD_cons]
  refine .mk rfl rfl rfl ?_ hnode.behind hlast.before (fun hnil => by cases hnil) (.cons hnode h)
  exact (isExtra_of_isCodeKind (n := Grammar.covering kind n ns) hkind).2

theorem wrap (hkind : isCodeKind kind = true) (h : Along is (Grown is) xs xs') :
    Along is (Grown is) (Grammar.wrap kind xs) (Grammar.wrap kind xs') := by
  induction h with
  | nil => exact .nil
  | @cons n n' news ns ns' hnews hnode h ih =>
    rw [append_of_extras (fun n ns h => wrap_extra h kind ns) (isExtra_of_news hnews)]
    cases hextra : isExtra n with
    | true =>
      rw [wrap_extra hextra, wrap_extra (by rw [hnode.isExtra_eq, hextra])]
      exact .cons hnews hnode ih
    | false =>
      rw [wrap_code hextra, wrap_code (by rw [hnode.isExtra_eq, hextra])]
      exact .cons hnews (h.covering hkind hnode) .nil

theorem gather (hkind : isCodeKind kind = true) (h : Along is (Grown is) xs xs') :
    Along is (Grown is) (Grammar.gather kind xs) (Grammar.gather kind xs') := by
  induction h with
  | nil => exact .nil
  | @cons n n' news ns ns' hnews hnode h ih =>
    rw [append_of_extras (fun n ns h => gather_extra h kind ns) (isExtra_of_news hnews)]
    cases hextra : isExtra n with
    | true =>
      rw [gather_extra hextra, gather_extra (by rw [hnode.isExtra_eq, hextra])]
      exact .cons hnews hnode ih
    | false =>
      rw [gather_code hextra, gather_code (by rw [hnode.isExtra_eq, hextra])]
      cases h with
      | nil => exact .cons hnews hnode .nil
      | @cons m m' news' ns ns' hnews' hnode' h =>
        rw [if_neg (by simp), if_neg (by simp)]
        exact .cons hnews ((Along.cons hnews' hnode' h).covering hkind hnode) .nil

theorem assign (h : Along is (Grown is) xs xs') (role : String) :
    Along is (Grown is) (Grammar.assign role xs) (Grammar.assign role xs') := by
  induction h with
  | nil => exact .nil
  | @cons n n' news ns ns' hnews hnode h ih =>
    -- comments take no role, so those inserted pass the assignment unchanged
    have hkeep : Grammar.assign role news = news := by
      rw [Grammar.assign, List.map_congr_left (g := id), List.map_id]
      intro c hc
      rw [isExtra_of_news hnews c hc]
      rfl
    have hsame : (isExtra n' || isMark n') = (isExtra n || isMark n) := by
      rw [hnode.isExtra_eq, hnode.isMark_eq.1, hnode.isMark_eq.2]
    show Along is (Grown is) ((if isExtra n || isMark n then n else n.withRole role) :: Grammar.assign role ns)
      (Grammar.assign role (news ++ n' :: ns'))
    have hsplit : Grammar.assign role (news ++ n' :: ns') = Grammar.assign role news ++
        (if isExtra n' || isMark n' then n' else n'.withRole role) :: Grammar.assign role ns' := by
      simp [Grammar.assign]
    rw [hsplit, hkeep, hsame]
    -- whether a node takes the role is the same on both sides
    split
    · exact .cons hnews hnode ih
    · refine .cons ?_ (hnode.withRole role) ih
      cases n
      cases n'
      exact hnews

end Along

end Docsmith.Grammar
