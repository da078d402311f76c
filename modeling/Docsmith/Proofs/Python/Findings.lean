import Docsmith.Proofs.Patch.Findings
import Docsmith.Proofs.Python.Apart
import Docsmith.Proofs.Python.Origins

namespace Docsmith.Python

open Text

/-!
# Findings of Python sources can be documented

A Python source declares the last definition of each identifier, and each of these identifiers leads to it
alone, so that a comment on a finding reaches the declaration that was found.

* `mem_lastOfEach`, `nodup_lastOfEach`: the last declaration of each identifier.
* `Origin.plain`: declarations of a source with plain names have plain names.
* `Origin.identifier_eq`: those that cannot be told apart have one identifier.
* `resolve?_declarations`: each declaration of a source is found by its identifier.
* `findings_are_patchable`: the first comment on a finding reaches its declaration.
-/

variable {t : SourceTree} {ds : List Declaration} {d e : Declaration} {n m : Node}

/-! ### The last of each -/

/-- **A declaration stays if none comes after it with its identifier.** -/
theorem mem_lastOfEach : d ∈ lastOfEach ds ↔
    ∃ earlier later, ds = earlier ++ d :: later ∧ ∀ e ∈ later, e.identifier ≠ d.identifier := by
  induction ds with
  | nil => simp [lastOfEach]
  | cons e rest ih =>
    -- the places of a declaration are the first one and those in the rest
    have hplaces : (∃ earlier later, e :: rest = earlier ++ d :: later ∧
          ∀ x ∈ later, x.identifier ≠ d.identifier) ↔
        (d = e ∧ ∀ x ∈ rest, x.identifier ≠ e.identifier) ∨ d ∈ lastOfEach rest := by
      rw [ih]
      constructor
      · rintro ⟨earlier, later, hsplit, hlater⟩
        cases earlier with
        | nil =>
          obtain ⟨rfl, rfl⟩ := List.cons.inj hsplit
          exact .inl ⟨rfl, hlater⟩
        | cons x earlier => exact .inr ⟨earlier, later, (List.cons.inj hsplit).2, hlater⟩
      · rintro (⟨rfl, hlater⟩ | ⟨earlier, later, rfl, hlater⟩)
        · exact ⟨[], rest, rfl, hlater⟩
        · exact ⟨e :: earlier, later, rfl, hlater⟩
    rw [hplaces, lastOfEach]
    by_cases hagain : rest.any (·.identifier == e.identifier) = true
    · rw [if_pos hagain]
      obtain ⟨x, hx, hid⟩ := List.any_eq_true.mp hagain
      exact ⟨.inr, fun h => h.resolve_left fun ⟨_, hlater⟩ => hlater x hx (by simpa using hid)⟩
    · rw [if_neg hagain, List.mem_cons]
      have hlater : ∀ x ∈ rest, x.identifier ≠ e.identifier := by simpa using hagain
      exact or_congr_left (and_iff_left hlater).symm

/-- **No identifier comes up twice.** -/
theorem nodup_lastOfEach (ds : List Declaration) : ((lastOfEach ds).map (·.identifier)).Nodup := by
  induction ds with
  | nil => exact .nil
  | cons d rest ih =>
    unfold lastOfEach
    split
    · exact ih
    · rename_i hagain
      refine List.nodup_cons.mpr ⟨fun hmem => hagain ?_, ih⟩
      obtain ⟨e, he, hid⟩ := List.mem_map.mp hmem
      exact List.any_eq_true.mpr ⟨e, lastOfEach_subset rest he, by simpa using hid⟩

/-! ### Names that lead back -/

/-- The names of a declaration are plain if those of the source are. -/
theorem Origin.plain (h : Origin t n d) (hnames : ∀ name ∈ namesOf t, isPlainName name = true) : d.Plain where
  name := hnames _ h.name_mem
  owner := by
    have howner := h.owner_mem
    split
    · exact hnames _ (by rwa [if_pos ‹_›] at howner)
    · rwa [if_neg ‹_›] at howner
  keyword hkind := by
    rw [h.keyword_eq hkind]
    split <;> decide

/-- **Declarations that cannot be told apart have one identifier.** -/
theorem Origin.identifier_eq (hd : Origin t n d) (he : Origin t m e) (h : d.Agrees e) :
    d.identifier = e.identifier := by
  have hkind : d.kind = e.kind := by
    have hspace := h.space
    have hd' := hd.kind_ne
    have he' := he.kind_ne
    cases hdk : d.kind <;> cases hek : e.kind <;> simp_all [DeclKind.space]
  have hkeyword (hvalue : e.kind = .value) : d.keyword = e.keyword := by
    rw [hd.keyword_eq (hkind.trans hvalue), he.keyword_eq hvalue, h.name]
  unfold Declaration.identifier
  rw [hkind, h.name, h.owner, hd.pointer_eq, he.pointer_eq]
  cases hek : e.kind <;> simp only [hkeyword, hek]

/-- What stands beside an origin has it. -/
theorem exists_of_beside {origins : List Node} {found : List (Declaration × Option Node)}
    (h : List.Forall₂ (fun n x => Origin t n x.1) origins found) {x : Declaration × Option Node} (hx : x ∈ found) :
    ∃ n, Origin t n x.1 := by
  induction h with
  | nil => cases hx
  | cons hfirst _ ih =>
    rcases List.mem_cons.mp hx with rfl | hx
    · exact ⟨_, hfirst⟩
    · exact ih hx

/-- **Each declaration of a source is found by its identifier.** -/
theorem resolve?_declarations (hnames : ∀ name ∈ namesOf t, isPlainName name = true) :
    Returns (declarations t) fun ds => ∀ d ∈ ds, resolve? ds d.identifier = some d := by
  refine (definitions_origins t).map fun found ⟨origins, _, hbeside⟩ d hd => ?_
  have horigin : ∀ d ∈ lastOfEach (found.map (·.1)), ∃ n, Origin t n d := by
    intro d hd
    obtain ⟨x, hx, rfl⟩ := List.mem_map.mp (lastOfEach_subset _ hd)
    exact exists_of_beside hbeside hx
  have hplain : ∀ d ∈ lastOfEach (found.map (·.1)), d.Plain := fun d hd =>
    let ⟨_, hn⟩ := horigin d hd
    hn.plain hnames
  refine resolve?_identifier hplain hd fun e he hagrees => ?_
  obtain ⟨n, hn⟩ := horigin d hd
  obtain ⟨m, hm⟩ := horigin e he
  exact List.inj_on_of_nodup_map (nodup_lastOfEach _) he hd (hm.identifier_eq hn hagrees)

/-! ### Comments on findings -/

/-- **Findings can be documented.**  In a source with plain names, the declarations are the last ones of each
    identifier among the definitions, in the order of the source; no identifier comes up twice, and each leads to
    its own declaration.  Definitions come from nodes of the source in its order, and none from an overload, or
    from a setter or deleter in a class, whose decorator is written as a dotted name.  If no two declarations
    share a slot, then on a new patch without leave to override the first comment under the identifier of a
    finding is accepted; or an earlier comment documented the declaration under an identifier that no
    declaration has. -/
theorem findings_are_patchable (hnames : ∀ name ∈ namesOf t, isPlainName name = true)
    (hds : declarations t = .ok ds) :
    (ds.map (·.identifier)).Nodup ∧ (∀ d ∈ ds, resolve? ds d.identifier = some d) ∧
    (∃ found origins, definitions t = .ok found ∧ ds.Sublist (found.map (·.1)) ∧
      (∀ d, d ∈ ds ↔ ∃ earlier later, found.map (·.1) = earlier ++ d :: later ∧
        ∀ e ∈ later, e.identifier ≠ d.identifier) ∧
      origins.Sublist t.root.preorder ∧ List.Forall₂ (fun n x => Origin t n x.1) origins found) ∧
    ∀ (folder : Folder) (languages : Languages) (o : FindOptions) (parse : Bytes → Except Failure SourceTree)
      (code : Bytes) (fs : List Finding) (earlier : List Remark) (c : Remark),
      let python : Language := { Language.python with parse := parse }
      let fresh : Patch := { folder := folder, languages := languages }
      let f₀ : PatchFile := { language := python, tree := t, declarations := ds }
      o.includeDocumented = false → parse code = .ok t → o.find python code c.file = .ok fs →
      c.identifier ∈ fs.map (·.identifier) → (ds.map (·.slot.key)).Nodup →
      (∀ c' ∈ earlier ++ [c], c'.file = c.file → fresh.load c'.disk c.file = .ok f₀) →
      (∀ c' ∈ earlier, c'.file = c.file → c'.identifier ≠ c.identifier) →
      ((fresh.after earlier).remark c).1 = .ok () ∨
        ((fresh.after earlier).remark c).1 = .error (.alreadyDocumented c.file c.identifier) ∧
          ∃ c' ∈ earlier, c'.file = c.file ∧ isBlankText c'.text = false ∧
            resolve? ds c'.identifier = resolve? ds c.identifier ∧ ∀ d ∈ ds, d.identifier ≠ c'.identifier := by
  have hback := resolve?_declarations hnames ds hds
  obtain ⟨found, hfound, rfl⟩ : ∃ found, definitions t = .ok found ∧ lastOfEach (found.map (·.1)) = ds := by
    unfold declarations at hds
    cases hfound : definitions t with
    | error e => rw [hfound] at hds; cases hds
    | ok found =>
      rw [hfound] at hds
      exact ⟨found, rfl, Except.ok.inj hds⟩
  obtain ⟨origins, hsub, hbeside⟩ := definitions_origins t found hfound
  refine ⟨nodup_lastOfEach _, hback, ⟨found, origins, hfound, lastOfEach_sublist _, fun d => mem_lastOfEach, hsub,
    hbeside⟩, ?_⟩
  intro folder languages o parse code fs earlier c python fresh f₀ hdocumented hparse hfind hfound hkeys hload
    hfirst
  obtain ⟨x, hx, hid⟩ := List.mem_map.mp hfound
  obtain ⟨d, hd, rfl, hdoc⟩ := FindOptions.mem_find hparse hds hfind hx
  have hresolve : resolve? f₀.declarations c.identifier = some d := by rw [← hid]; exact hback d hd
  refine (Patch.remark_of_undocumented rfl rfl hload hresolve (hdoc hdocumented)).imp id ?_
  rintro ⟨hrefused, c', hc', hfile, htext, d', hresolve', hkey⟩
  -- the earlier comment meant this declaration, under another identifier
  obtain rfl : d' = d := List.inj_on_of_nodup_map hkeys (Patch.resolve?_mem hresolve') hd hkey
  refine ⟨hrefused, c', hc', hfile, htext, hresolve'.trans hresolve.symm, fun e he heq => ?_⟩
  obtain rfl : e = d' := by
    rw [← heq, hback e he] at hresolve'
    exact Option.some.inj hresolve'
  exact hfirst c' hc' hfile (heq.symm.trans hid)

/-- A class with a property and its setter, an overload, two functions of one name, and two values: comments on
    the class and the values do not stand in the way of one on the function. -/
theorem findings_are_patchable_in_a_file :
    let code := encode ("class C:\n    @property\n    def x(self): return 1\n    @x.setter\n"
      ++ "    def x(self, v): pass\n@typing.overload\ndef f(): ...\ndef f(a): pass\nX, Y = 1, 2\ndef f(a, b): pass\n")
    let disk : FileTree := [.file "a.py" code]
    let earlier : List Remark := [⟨disk, "a.py", "type:C", "Hold one."⟩, ⟨disk, "a.py", "const:X", "Two."⟩]
    let c : Remark := ⟨disk, "a.py", "func:f", "Give all."⟩
    let fresh : Patch := { folder := {} }
    ∃ t ds fs, parseTree code = .ok t ∧ (∀ name ∈ namesOf t, isPlainName name = true) ∧ declarations t = .ok ds ∧
      ds.map (·.identifier) = ["type:C", "prop:C.x", "const:X", "func:f"] ∧
      (∀ d ∈ ds, resolve? ds d.identifier = some d) ∧ FindOptions.find {} .python code "a.py" = .ok fs ∧
      fs.length = 4 ∧ ((fresh.after earlier).remark c).1 = .ok () := by
  intro code disk earlier c fresh
  have hall : (parseTree code).toOption.any (fun t => (namesOf t).all isPlainName &&
      (declarations t).toOption.any fun ds =>
        ds.map (·.identifier) = ["type:C", "prop:C.x", "const:X", "func:f"] ∧ (ds.map (·.slot.key)).Nodup ∧
        (FindOptions.wanted {} ds).length = 4 ∧
        (FindOptions.wanted {} ds).any (·.identifier == "func:f")) = true := by
    decide +kernel
  obtain ⟨t, ht, htest⟩ := exists_of_any hall
  obtain ⟨hnames, htest⟩ := Bool.and_eq_true_iff.mp htest
  obtain ⟨ds, hds, htest⟩ := exists_of_any htest
  obtain ⟨hids, hkeys, hlength, hfound⟩ := of_decide_eq_true htest
  have hnames' := List.all_eq_true.mp hnames
  obtain ⟨-, hback, -, hcomment⟩ := findings_are_patchable hnames' hds
  have hpython : Language.python.parse = parseTree := rfl
  have hparse : Language.python.parse code = .ok t := by rw [hpython, ht]
  have hfind : FindOptions.find {} .python code "a.py" = .ok _ := FindOptions.find_eq hparse hds
  have hload : fresh.load disk "a.py" = .ok { language := .python, tree := t, declarations := ds } :=
    Patch.load_of_parse rfl rfl hparse hds
  refine ⟨t, ds, _, ht, hnames', hds, hids, hback, hfind, by simpa [List.length_mergeSort] using hlength, ?_⟩
  refine (hcomment {} .default {} Language.python.parse code _ earlier c rfl hparse hfind ?_ hkeys ?_
    ?_).resolve_right ?_
  · obtain ⟨d, hd, hid⟩ := List.any_eq_true.mp hfound
    refine List.mem_map.mpr ⟨d.finding "python" "a.py", ?_, beq_iff_eq.mp hid⟩
    exact (List.mergeSort_perm _ _).mem_iff.mpr (List.mem_map.mpr ⟨d, hd, rfl⟩)
  · intro c' hc' _
    have hdisk : c'.disk = disk := by
      simp only [earlier, List.cons_append, List.nil_append, List.mem_cons, List.not_mem_nil, or_false] at hc'
      rcases hc' with rfl | rfl | rfl <;> rfl
    rw [hdisk]
    exact hload
  · decide
  · -- the earlier comments are under identifiers of declarations
    rintro ⟨-, c', hc', -, -, -, hnone⟩
    have hid : c'.identifier ∈ ds.map (·.identifier) := by
      rw [hids]
      simp only [earlier, List.mem_cons, List.not_mem_nil, or_false] at hc'
      rcases hc' with rfl | rfl <;> decide
    obtain ⟨d, hd, heq⟩ := List.mem_map.mp hid
    exact hnone d hd heq

/-- A comment behind the decorator of a setter hides it: the setter counts as a method. -/
theorem setter_behind_a_comment_is_declared :
    let code := encode ("class C:\n    @property\n    def x(self):\n        return 1\n\n    @x.setter  # write\n"
      ++ "    def x(self, v):\n        pass\n")
    ∃ t ds, parseTree code = .ok t ∧ (∀ name ∈ namesOf t, isPlainName name = true) ∧ declarations t = .ok ds ∧
      ∃ d ∈ ds, d.identifier = "func:C.x" ∧ ∃ n ∈ t.root.preorder, n.kind = "decorated_definition" ∧
        d.start = n.start ∧ d.stop = n.stop ∧ ∃ a ∈ (decoratorsOf n).flatMap Node.namedChildren,
          a.isComment = false ∧ t.textOf (some a) = .ok "x.setter" := by
  intro code
  have hall : (parseTree code).toOption.any (fun t => (namesOf t).all isPlainName &&
      (declarations t).toOption.any fun ds => ds.any fun d => d.identifier == "func:C.x" &&
        t.root.preorder.any fun n => n.kind == "decorated_definition" && d.start == n.start && d.stop == n.stop &&
          ((decoratorsOf n).flatMap Node.namedChildren).any fun a => a.isComment == false &&
            (t.textOf (some a)).toOption == some "x.setter") = true := by
    decide +kernel
  obtain ⟨t, ht, htest⟩ := exists_of_any hall
  obtain ⟨hnames, htest⟩ := Bool.and_eq_true_iff.mp htest
  obtain ⟨ds, hds, htest⟩ := exists_of_any htest
  simp only [List.any_eq_true, Bool.and_eq_true, beq_iff_eq] at htest
  obtain ⟨d, hd, hid, n, hn, ⟨⟨hkind, hstart⟩, hstop⟩, a, ha, hcode, htext⟩ := htest
  exact ⟨t, ds, ht, List.all_eq_true.mp hnames, hds, d, hd, hid, n, hn, hkind, hstart, hstop, a, ha, hcode,
    eq_ok_of_toOption htext⟩

end Docsmith.Python
