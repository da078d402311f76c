import Docsmith.Proofs.Go.Landings
import Docsmith.Proofs.Go.Told
import Docsmith.Proofs.Patch.Findings
import Docsmith.Proofs.Patch.Recall
import Docsmith.Proofs.Project.Schedule

namespace Docsmith

open Text

/-!
# What was found is documented

Once a text is set for each finding of a Go source nothing of what was found is found again, if the comments on the
findings stand in front of what they are on.

* `FindOptions.mem_find_iff`, `FindOptions.nodup_find`: the findings and the declarations that are found.
* `Patch.Addressed`: comments on declarations of one file, each of them on a slot of its own.
* `Patch.Addressed.accepted_eq`: all of them are accepted.
* `Patch.Addressed.mem_ordered`: the edits that wait for the file are theirs.
* `FindOptions.Tellable`: what is found can be told of in a Go source.
* `FindOptions.Tellable.slot_inj`: it has slots of its own then.
* `PatchFile.Traced.find_render`, `Patch.findings_are_documented`: nothing is left to document.
-/

/-! ### Findings -/

namespace FindOptions

variable {o : FindOptions} {l : Language} {code : Bytes} {file : String} {t : SourceTree} {ds : List Declaration}
  {fs : List Finding} {d : Declaration} {x : Finding}

/-- What is found is declared, and counts. -/
theorem mem_of_wanted (h : d ∈ o.wanted ds) : d ∈ ds ∧ o.wants d = true :=
  List.mem_filter.mp (firstOfEach_subset [] _ h)

/-- What counts is not documented, unless that was asked for. -/
theorem hasDoc_of_wants (hopen : o.includeDocumented = false) (h : o.wants d = true) : d.slot.hasDoc = false := by
  simp only [wants, hopen, Bool.or_false, Bool.and_eq_true, Bool.not_eq_true'] at h
  exact h.2

/-- The findings are those of the declarations that are found. -/
theorem mem_find_iff (ht : l.parse code = .ok t) (hds : l.declarations t = .ok ds)
    (hfs : o.find l code file = .ok fs) : x ∈ fs ↔ ∃ d ∈ o.wanted ds, d.finding l.name file = x := by
  rw [find_eq ht hds] at hfs
  cases hfs
  rw [(List.mergeSort_perm _ _).mem_iff, List.mem_map]

/-- There is one finding for each identifier. -/
theorem nodup_find (ht : l.parse code = .ok t) (hds : l.declarations t = .ok ds)
    (hfs : o.find l code file = .ok fs) : (fs.map Finding.identifier).Nodup := by
  rw [find_eq ht hds] at hfs
  cases hfs
  refine ((List.mergeSort_perm _ _).map Finding.identifier).nodup_iff.mpr ?_
  rw [List.map_map]
  exact (Project.firstOfEach_nodup [] (ds.filter o.wants)).1

end FindOptions

/-! ### Comments on slots of their own -/

/-- What is said alone on a slot is said last. -/
theorem lastSaid?_of_alone {said : List (DocSlot × String)} {y : DocSlot × String} (hy : y ∈ said)
    (halone : ∀ z ∈ said, z.1.key = y.1.key → z = y) : lastSaid? said y.1.key = some y := by
  cases hlast : lastSaid? said y.1.key with
  | none =>
    have hkey := List.find?_eq_none.mp hlast y (List.mem_reverse.mpr hy)
    simp at hkey
  | some z =>
    obtain ⟨hz, hkey⟩ := mem_of_lastSaid? hlast
    rw [halone z hz hkey]

namespace Patch

variable {p : Patch} {folder : Folder} {disk : FileTree} {file : String} {text : String → String}
  {ds wanted : List Declaration} {calls : List Remark} {c : Remark} {f : PatchFile} {y : DocSlot × String} {x : Edit}

/-- Comments on some of the declarations of a file: one on each of them, under an identifier that means it, and on a
    slot of its own. -/
structure Addressed (calls : List Remark) (disk : FileTree) (file : String) (text : String → String)
    (ds wanted : List Declaration) : Prop where
  mem_calls : ∀ c, c ∈ calls ↔ ∃ d ∈ wanted, c = ⟨disk, file, d.identifier, text d.identifier⟩
  nodup : (calls.map Remark.identifier).Nodup
  resolved : ∀ d ∈ wanted, resolve? ds d.identifier = some d
  apart : ∀ d ∈ wanted, ∀ e ∈ wanted, d.slot.key = e.slot.key → d = e

/-- The comments on the findings of a source, if these have slots of their own. -/
theorem addressed_remarks {o : FindOptions} {l : Language} {code : Bytes} {t : SourceTree} {fs : List Finding}
    (ht : l.parse code = .ok t) (hds : l.declarations t = .ok ds) (hfs : o.find l code file = .ok fs)
    (hresolved : ∀ d ∈ o.wanted ds, resolve? ds d.identifier = some d)
    (hapart : ∀ d ∈ o.wanted ds, ∀ e ∈ o.wanted ds, d.slot.key = e.slot.key → d = e) :
    Addressed (remarks disk text fs) disk file text ds (o.wanted ds) where
  mem_calls c := by
    simp only [remarks, List.mem_map, FindOptions.mem_find_iff ht hds hfs]
    constructor
    · rintro ⟨-, ⟨d, hd, rfl⟩, rfl⟩
      exact ⟨d, hd, rfl⟩
    · rintro ⟨d, hd, rfl⟩
      exact ⟨_, ⟨d, hd, rfl⟩, rfl⟩
  nodup := by
    rw [remarks, List.map_map]
    exact FindOptions.nodup_find ht hds hfs
  resolved := hresolved
  apart := hapart

/-- Comments of which each is accepted after those before it are all accepted. -/
theorem accepted_eq_self (h : ∀ before c rest, calls = before ++ c :: rest → ((p.after before).remark c).1 = .ok ()) :
    p.accepted calls = calls := by
  induction calls generalizing p with
  | nil => rfl
  | cons c rest ih =>
    have hfirst : (p.remark c).1 = .ok () := h [] c rest rfl
    rw [accepted_of_ok hfirst, ih fun before c' rest' heq => ?_]
    exact h (c :: before) c' rest' (by rw [heq, List.cons_append])

namespace Addressed

variable (h : Addressed calls disk file text ds wanted)

include h

/-- **Comments on slots of their own are accepted** on a new patch, if the slots are without documentation. -/
theorem accepted_eq {f₀ : PatchFile} (hnew : p.files = []) (hload : p.load disk file = .ok f₀)
    (hclean : f₀.texts = []) (hdeclarations : f₀.declarations = ds) (hvacant : ∀ d ∈ wanted, d.slot.hasDoc = false) :
    p.accepted calls = calls := by
  refine accepted_eq_self fun before c rest hcalls => ?_
  have hmem {c' : Remark} (hc' : c' ∈ before ++ [c]) :
      ∃ d ∈ wanted, c' = ⟨disk, file, d.identifier, text d.identifier⟩ := by
    refine (h.mem_calls c').mp ?_
    rw [hcalls, List.append_cons]
    exact List.mem_append_left rest hc'
  have hload' : ∀ c' ∈ before ++ [c], c'.file = c.file → p.load c'.disk c.file = .ok f₀ := by
    intro c' hc' hsame
    obtain ⟨d, -, rfl⟩ := hmem hc'
    rw [← hsame]
    exact hload
  obtain ⟨d, hd, rfl⟩ := hmem (List.mem_append_right before List.mem_cons_self)
  have hresolve : resolve? f₀.declarations d.identifier = some d := by rw [hdeclarations, h.resolved d hd]
  rcases remark_of_undocumented hnew hclean hload' hresolve (hvacant d hd) with hok | ⟨-, c', hc', -, -, e, he, hkey⟩
  · exact hok
  · -- the one that stands in the way would be on the same declaration
    obtain ⟨d', hd', rfl⟩ := hmem (List.mem_append_left [_] hc')
    rw [hdeclarations, h.resolved d' hd'] at he
    obtain rfl : d' = e := Option.some.inj he
    obtain rfl := h.apart d' hd' d hd hkey
    have hnodup := h.nodup
    rw [hcalls, List.map_append, List.map_cons] at hnodup
    exact absurd List.mem_cons_self (List.disjoint_of_nodup_append hnodup (List.mem_map_of_mem hc'))

/-- What the comments say. -/
theorem mem_said (hdeclarations : f.declarations = ds) :
    y ∈ f.said file calls ↔ ∃ d ∈ wanted, (d.slot, text d.identifier) = y := by
  rw [PatchFile.said, List.mem_filterMap, hdeclarations]
  constructor
  · rintro ⟨c, hc, hy⟩
    obtain ⟨d, hd, rfl⟩ := (h.mem_calls c).mp hc
    rw [if_pos rfl, h.resolved d hd] at hy
    exact ⟨d, hd, Option.some.inj hy⟩
  · rintro ⟨d, hd, rfl⟩
    refine ⟨⟨disk, file, d.identifier, text d.identifier⟩, (h.mem_calls _).mpr ⟨d, hd, rfl⟩, ?_⟩
    rw [if_pos rfl, h.resolved d hd]
    rfl

/-- **The edits that wait for the file** are one for each declaration with a comment. -/
theorem mem_ordered {made : List Remark} (hf : f.Traced folder file made calls) (hkeyed : f.tree.edits.Keyed)
    (hdeclarations : f.declarations = ds) : x ∈ f.tree.edits.ordered ↔
      ∃ d ∈ wanted, ⟨d.slot.start, d.slot.stop, f.language.renderDoc d.slot (text d.identifier)⟩ = x := by
  rw [hf.mem_ordered_iff hkeyed]
  constructor
  · rintro ⟨key, y, hlast, rfl⟩
    obtain ⟨d, hd, rfl⟩ := (h.mem_said hdeclarations).mp (mem_of_lastSaid? hlast).1
    exact ⟨d, hd, rfl⟩
  · rintro ⟨d, hd, rfl⟩
    have hy : (d.slot, text d.identifier) ∈ f.said file calls := (h.mem_said hdeclarations).mpr ⟨d, hd, rfl⟩
    have hlast := lastSaid?_of_alone hy fun z hz hkey => by
      obtain ⟨e, he, rfl⟩ := (h.mem_said hdeclarations).mp hz
      rw [h.apart e he d hd hkey]
    exact ⟨_, _, hlast, rfl⟩

end Addressed

/-! ### Patches of one file -/

/-- Comments on one file open no other. -/
theorem file?_after_of_ne {other : String} (h : ∀ c ∈ calls, c.file ≠ other) :
    (p.after calls).file? other = p.file? other := by
  induction calls generalizing p with
  | nil => rfl
  | cons c rest ih =>
    obtain ⟨hc, hrest⟩ := List.forall_mem_cons.mp h
    show ((p.remark c).2.after rest).file? other = _
    rw [ih hrest, file?_remark, if_neg hc]

/-- A patch with one file is rendered as this file. -/
theorem dryRun_of_file {code : Bytes} (hp : p.Tidy) (hfile : p.file? file = some f)
    (honly : ∀ other, other ≠ file → p.file? other = none) (hrender : f.render file = .ok code) :
    p.dryRun = .ok [(file, code)] := by
  have hname : ∀ x ∈ p.renderings, x.1 = file := by
    intro x hx
    by_contra hne
    have hmem : x ∈ p.renderings.filter (·.1 == x.1) := List.mem_filter.mpr ⟨hx, by simp⟩
    rw [filter_renderings hp, honly x.1 hne] at hmem
    cases hmem
  have hall : p.renderings = [(file, .ok code)] := by
    rw [← List.filter_eq_self.mpr fun x hx => beq_iff_eq.mpr (hname x hx), filter_renderings hp, hfile]
    simp [hrender]
  rw [dryRun_eq_mapM, hall]
  rfl

end Patch

/-- A file that every comment found the same on the disk is that source. -/
theorem PatchFile.Traced.eq_of_read {f : PatchFile} {folder : Folder} {file : String} {made heard : List Remark}
    {l : Language} {code : Bytes} {t : SourceTree} {ds : List Declaration} (h : f.Traced folder file made heard)
    (hl : Languages.default.forFile? file = some l)
    (hread : ∀ c ∈ made, c.file = file → folder.read c.disk file = .ok code) (ht : l.parse code = .ok t)
    (hds : l.declarations t = .ok ds) :
    f.language = l ∧ t = { code := f.tree.code, root := f.tree.root } ∧ f.declarations = ds := by
  have hlanguage : f.language = l := Option.some.inj (h.language.symm.trans hl)
  obtain ⟨c, hc, hfile, hsource⟩ := h.source
  have hcode : f.tree.code = code := Except.ok.inj (hsource.symm.trans (hread c hc hfile))
  have hparsed := h.genuine.parsed
  have hdeclared := h.genuine.declared
  rw [hlanguage, hcode, ht] at hparsed
  have htree := Except.ok.inj hparsed
  rw [hlanguage, hcode, ← htree, hds] at hdeclared
  exact ⟨hlanguage, by rw [hcode, htree], (Except.ok.inj hdeclared).symm⟩

/-! ### Go sources -/

theorem Language.parse_go : Language.go.parse = Go.parseTree := by rw [Language.go]

/-- A tree that was parsed is that of its code. -/
theorem Language.tree_of_parse_go {code : Bytes} {t : SourceTree} (ht : Language.go.parse code = .ok t) :
    t.code = code ∧ Go.parse t.code = .ok t.root := by
  rw [Language.parse_go] at ht
  exact ⟨(Go.parseTree_reads code t ht).1, Go.parse_of_fresh (Go.parseTree_reads.fresh code t ht)⟩

/-- Where a declaration is does not show in its identifier. -/
theorem Declaration.identifier_place (d : Declaration) (slot : DocSlot) (start stop : Nat) :
    { d with slot := slot, start := start, stop := stop }.identifier = d.identifier := rfl

/-- What is found in a source can be told of with some texts: each declaration is what its identifier means, and the
    only one with this identifier, the comment on it stands in front of it or of the construct that holds it, and its
    text can be said. -/
structure FindOptions.Tellable (o : FindOptions) (t : SourceTree) (ds : List Declaration) (text : String → String) :
    Prop where
  resolved : ∀ d ∈ o.wanted ds, resolve? ds d.identifier = some d
  alone : ∀ d ∈ o.wanted ds, ∀ e ∈ ds, e.identifier = d.identifier → e = d
  lands : ∀ d ∈ o.wanted ds, t.Lands d
  sayable : ∀ d ∈ o.wanted ds, Go.Sayable (text d.identifier)

instance (o : FindOptions) (t : SourceTree) (ds : List Declaration) (text : String → String) :
    Decidable (o.Tellable t ds text) :=
  decidable_of_iff ((∀ d ∈ o.wanted ds, resolve? ds d.identifier = some d) ∧
      (∀ d ∈ o.wanted ds, ∀ e ∈ ds, e.identifier = d.identifier → e = d) ∧ (∀ d ∈ o.wanted ds, t.Lands d) ∧
      ∀ d ∈ o.wanted ds, Go.Sayable (text d.identifier))
    ⟨fun ⟨h₁, h₂, h₃, h₄⟩ => ⟨h₁, h₂, h₃, h₄⟩, fun ⟨h₁, h₂, h₃, h₄⟩ => ⟨h₁, h₂, h₃, h₄⟩⟩

namespace FindOptions.Tellable

variable {o : FindOptions} {t : SourceTree} {ds : List Declaration} {text : String → String} {d e : Declaration}

variable (h : o.Tellable t ds text) (hopen : o.includeDocumented = false) (hparse : Go.parse t.code = .ok t.root)
  (hds : Go.declarations t = .ok ds)

include h hopen hparse hds

/-- Comments in front of the same code are on one declaration. -/
theorem landing_inj (hd : d ∈ o.wanted ds) (he : e ∈ o.wanted ds) (hsame : d.landing t.code = e.landing t.code) :
    d = e := by
  have hisOpen {d : Declaration} (hd : d ∈ o.wanted ds) : Go.Open t d :=
    ⟨hasDoc_of_wants hopen (mem_of_wanted hd).2, h.lands d hd⟩
  refine List.Pairwise.forall_of_forall_of_flip (R := fun d e : Declaration => d ∈ o.wanted ds → e ∈ o.wanted ds →
    d.landing t.code = e.landing t.code → d = e) ?_ ?_ ?_ (mem_of_wanted hd).1 (mem_of_wanted he).1 hd he hsame
  · exact fun d _ _ _ _ => rfl
  · refine (Go.landings_increase hparse ds hds).imp fun hlt hd he hsame => ?_
    exact absurd hsame (Nat.ne_of_lt (hlt (hisOpen hd) (hisOpen he)))
  · refine (Go.landings_increase hparse ds hds).imp fun hlt he hd hsame => ?_
    exact absurd hsame.symm (Nat.ne_of_lt (hlt (hisOpen hd) (hisOpen he)))

/-- **Declarations that can be told of have slots of their own.** -/
theorem slot_inj (hd : d ∈ o.wanted ds) (he : e ∈ o.wanted ds) (hkey : d.slot.key = e.slot.key) : d = e := by
  refine h.landing_inj hopen hparse hds hd he ?_
  rw [Declaration.landing, Declaration.landing, DocSlot.key_inj.mp hkey]

/-- The text for a declaration is set in front of it. -/
theorem telling (hd : d ∈ o.wanted ds) :
    Go.Telling t d ⟨d.slot.start, d.slot.stop, d.slot.renderLine "//" (text d.identifier)⟩ where
  sited := Go.sited_declarations (Go.shaped_of_parse hparse) ds hds d (mem_of_wanted hd).1
  vacant := hasDoc_of_wants hopen (mem_of_wanted hd).2
  lands := h.lands d hd
  edit := ⟨text d.identifier, h.sayable d hd, rfl⟩

end FindOptions.Tellable

section Documented

variable {f : PatchFile} {folder : Folder} {disk : FileTree} {file : String} {made calls : List Remark} {code : Bytes}
  {t : SourceTree} {ds : List Declaration} {o : FindOptions} {fs : List Finding} {text : String → String}

/-- **A Go source with comments on what was found** is one in which none of it is found. -/
theorem PatchFile.Traced.find_render (hf : f.Traced folder file made calls) (hkeyed : f.tree.edits.Keyed)
    (hlanguage : f.language = .go) (htree : t = { code := f.tree.code, root := f.tree.root })
    (hdeclarations : f.declarations = ds) (hcalls : Patch.Addressed calls disk file text ds (o.wanted ds))
    (hparse : Go.parse t.code = .ok t.root) (hds : Go.declarations t = .ok ds) (hclosed : Go.Closed t.code)
    (hopen : o.includeDocumented = false) (h : o.Tellable t ds text) :
    ∃ code' fs', f.render file = .ok code' ∧ o.find .go code' file = .ok fs' ∧
      ∀ d ∈ o.wanted ds, ∀ y ∈ fs', y.identifier ≠ d.identifier := by
  have hedit {x : Edit} : x ∈ f.tree.edits.ordered ↔
      ∃ d ∈ o.wanted ds, ⟨d.slot.start, d.slot.stop, d.slot.renderLine "//" (text d.identifier)⟩ = x := by
    rw [hcalls.mem_ordered hf hkeyed hdeclarations, hlanguage]
    rfl
  have htelling {d : Declaration} (hd : d ∈ o.wanted ds) := h.telling hopen hparse hds hd
  have hxs : ∀ x ∈ f.tree.edits.ordered, ∃ d, Go.Telling t d x := by
    intro x hx
    obtain ⟨d, hd, rfl⟩ := hedit.mp hx
    exact ⟨d, htelling hd⟩
  have hapart : f.tree.edits.ordered.Pairwise fun a b =>
      (Go.insertion t.code a).target ≠ (Go.insertion t.code b).target := by
    refine List.Pairwise.imp_of_mem (fun {a b} ha hb hne hsame => ?_) (List.pairwise_map.mp hkeyed.nodup_start)
    obtain ⟨d, hd, rfl⟩ := hedit.mp ha
    obtain ⟨e, he, rfl⟩ := hedit.mp hb
    rw [(htelling hd).insertion_eq.2, (htelling he).insertion_eq.2] at hsame
    exact hne (by rw [h.landing_inj hopen hparse hds hd he hsame])
  obtain ⟨t', ds', ht', hds', hkin⟩ := Go.declarations_of_edits hparse hclosed hds hxs
    (EditSet.pairwise_start _) hapart
  have hrender : f.tree.render = t.code.applyEdits 0 f.tree.edits.ordered := by rw [htree]; rfl
  have hparse' : Language.go.parse f.tree.render = .ok t' := by rw [Language.parse_go, hrender, ht']
  obtain ⟨fs', hfs'⟩ : ∃ fs', o.find .go f.tree.render file = .ok fs' := ⟨_, FindOptions.find_eq hparse' hds'⟩
  refine ⟨f.tree.render, fs', by rw [PatchFile.render, hlanguage, hparse'], hfs', fun e he y hy hname => ?_⟩
  obtain ⟨d', hd', rfl⟩ := (FindOptions.mem_find_iff hparse' hds' hfs').mp hy
  obtain ⟨hmem, hwants⟩ := FindOptions.mem_of_wanted hd'
  -- the finding is on the declaration that was told of
  obtain ⟨i, hi, rfl⟩ := List.getElem_of_mem hmem
  have hi' : i < ds.length := by rw [hkin.length_eq]; exact hi
  obtain ⟨hsame, htold⟩ := hkin.get hi' hi
  have hidentifier : ds'[i].identifier = ds[i].identifier :=
    (Declaration.identifier_place _ _ _ _).symm.trans (congrArg Declaration.identifier hsame)
  obtain rfl : ds[i] = e := h.alone e he ds[i] (List.getElem_mem hi') (hidentifier.symm.trans hname)
  have hdocumented : ds'[i].slot.hasDoc = true := htold ⟨_, hedit.mpr ⟨ds[i], he, rfl⟩, htelling he⟩
  rw [FindOptions.hasDoc_of_wants hopen hwants] at hdocumented
  cases hdocumented

namespace Patch

/-- **Documenting a Go source leaves nothing to document.**  In a source all of whose comments are closed let texts be
    given for the findings, so that each is what its identifier means, alone under it, the comment on it stands in front
    of it or of the construct that holds it, and its text says something and has no zero byte.  Then a new patch accepts
    the comments on all findings in their order; and if there are any, the file is rendered as a source again, in which
    nothing is found under their identifiers. -/
theorem findings_are_documented (hl : Languages.default.forFile? file = some .go)
    (hread : folder.read disk file = .ok code) (ht : Language.go.parse code = .ok t)
    (hds : Language.go.declarations t = .ok ds) (hclosed : Go.Closed code) (hopen : o.includeDocumented = false)
    (h : o.Tellable t ds text) :
    ∃ fs, o.find .go code file = .ok fs ∧
      accepted { folder := folder } (remarks disk text fs) = remarks disk text fs ∧
      (fs ≠ [] → ∃ code' fs', (after { folder := folder } (remarks disk text fs)).dryRun = .ok [(file, code')] ∧
        o.find .go code' file = .ok fs' ∧ ∀ x ∈ fs, ∀ y ∈ fs', y.identifier ≠ x.identifier) := by
  obtain ⟨rfl, hparse⟩ := Language.tree_of_parse_go ht
  obtain ⟨fs, hfs⟩ : ∃ fs, o.find .go t.code file = .ok fs := ⟨_, FindOptions.find_eq ht hds⟩
  have hcalls : Addressed (remarks disk text fs) disk file text ds (o.wanted ds) :=
    addressed_remarks ht hds hfs h.resolved fun d hd e he => h.slot_inj hopen hparse hds hd he
  have haccepted : accepted { folder := folder } (remarks disk text fs) = remarks disk text fs :=
    hcalls.accepted_eq rfl (load_of_parse hl hread ht hds) rfl rfl fun d hd =>
      FindOptions.hasDoc_of_wants hopen (FindOptions.mem_of_wanted hd).2
  refine ⟨fs, hfs, haccepted, fun hne => ?_⟩
  have honly {c : Remark} (hc : c ∈ remarks disk text fs) : c.file = file ∧ c.disk = disk := by
    obtain ⟨d, -, rfl⟩ := (hcalls.mem_calls c).mp hc
    exact ⟨rfl, rfl⟩
  -- the file comes into the patch with the first comment
  obtain ⟨x, hx⟩ := List.exists_mem_of_ne_nil fs hne
  have hc : (⟨disk, x.file, x.identifier, text x.identifier⟩ : Remark) ∈ remarks disk text fs := List.mem_map_of_mem hx
  have hopened := ((recalls_fresh folder false).after (remarks disk text fs)).opened _ (by rw [haccepted]; exact hc)
  obtain ⟨f, hfile⟩ := Option.isSome_iff_exists.mp hopened
  rw [(honly hc).1] at hfile
  have htraced := traced_after hfile
  rw [haccepted] at htraced
  obtain ⟨hlanguage, htree, hdeclarations⟩ := htraced.eq_of_read hl
    (fun c hc _ => by rw [(honly hc).2]; exact hread) ht hds
  obtain ⟨code', fs', hrender, hfs', hnone⟩ := htraced.find_render (keyed_after hfile) hlanguage htree hdeclarations
    hcalls hparse hds hclosed hopen h
  refine ⟨code', fs', dryRun_of_file (tidy_after folder false _) hfile (fun other hother => ?_) hrender, hfs', ?_⟩
  · rw [file?_after_of_ne fun c hc => by rw [(honly hc).1]; exact hother.symm]
    rfl
  · intro x hx
    obtain ⟨d, hd, rfl⟩ := (FindOptions.mem_find_iff ht hds hfs).mp hx
    exact hnone d hd

/-- Members of a group on lines of their own and on one line, a method of an interface, the sole member of a group, and
    a method with a comment in its body. -/
theorem findings_are_documented_in_five_layouts :
    let code := encode ("package a\n\ntype (\n\tT struct\x7b A int \x7d\n\tI interface \x7b\n\t\tM()\n\t\x7d\n)\n\n"
      ++ "const ( X = 1; Y = 2; )\n\nvar (\n\tV, W = 1, 2\n)\n\nfunc (t *T) Do() \x7b /* Nothing. */ \x7d\n")
    let disk : FileTree := [.file "a.go" code]
    let text := fun identifier => "About " ++ identifier ++ "."
    let fresh : Patch := { folder := {} }
    ∃ fs code' fs', FindOptions.find {} .go code "a.go" = .ok fs ∧ fs.length = 7 ∧
      fresh.accepted (remarks disk text fs) = remarks disk text fs ∧
      (fresh.after (remarks disk text fs)).dryRun = .ok [("a.go", code')] ∧
      FindOptions.find {} .go code' "a.go" = .ok fs' ∧ ∀ x ∈ fs, ∀ y ∈ fs', y.identifier ≠ x.identifier := by
  intro code disk text fresh
  have hall : (Language.go.parse code).toOption.any (fun t => (Language.go.declarations t).toOption.any fun ds =>
      decide (FindOptions.Tellable {} t ds text) && (FindOptions.wanted {} ds).length == 7) = true := by
    decide +kernel
  obtain ⟨t, ht, hall⟩ := exists_of_any hall
  obtain ⟨ds, hds, hall⟩ := exists_of_any hall
  rw [Bool.and_eq_true, decide_eq_true_eq, beq_iff_eq] at hall
  have hclosed : Go.Closed code := Go.closed_of_forall (by decide +kernel)
  have hgo : Languages.default.forFile? "a.go" = some .go := rfl
  have hread : Folder.read {} disk "a.go" = .ok code := rfl
  obtain ⟨fs, hfs, haccepted, hdone⟩ := findings_are_documented hgo hread ht hds hclosed rfl hall.1
  have hlength : fs.length = 7 := by
    rw [FindOptions.find_eq ht hds] at hfs
    cases hfs
    rw [List.length_mergeSort, List.length_map, hall.2]
  obtain ⟨code', fs', hrender, hfs', hnone⟩ := hdone (by rintro rfl; cases hlength)
  exact ⟨fs, code', fs', hfs, hlength, haccepted, hrender, hfs', hnone⟩

end Patch

end Documented

end Docsmith
