import Docsmith.Project
import Docsmith.Proofs.Generate.Verdict
import Docsmith.Proofs.Patch.Apply
import Docsmith.Proofs.Returns
import Docsmith.Proofs.Text.Order
import Mathlib.Data.List.Nodup

namespace Docsmith

open List Text

/-!
# The schedule does not show in what is generated

The workers of a run may take turns in any order, and there may be any number of them.  The
documentation is sorted before it goes into a patch, so that what is generated for a project is the
same in the end.

* `Project.Generates`: what generating can come to, in some schedule.
* `Project.SameResult`: two results are the same, but for the order of errors.
* `Project.map_sortDocs_of_perm`: sorting undoes a permutation as far as equals are the same.
* `Project.collect_same`: runs with the same documentation and errors come to the same.
* `Project.OneText`, `Project.OneContext`: findings of one symbol that cannot be told apart.
* `Project.generate_ignores_schedule`: all results are the same.
* `Project.schedule_shows_in_two_texts`: they are not, where one symbol is listed for two targets.
-/

/-- The symbol that documentation is for, by which it is sorted. -/
def Documentation.key (d : Documentation) : List String := [d.input.file, d.input.identifier]

/-- Documentation as it goes into a patch: the file, the identifier and the text. -/
def Documentation.entry (d : Documentation) : String × String × String :=
  (d.input.file, d.input.identifier, d.text)

namespace Project

/-! ### Results in any schedule -/

/-- What generating documentation for findings can come to: either the inputs cannot be read, or
    the workers take turns in some way until the streams of their run are closed. -/
inductive Generates {σ : Type} (p : Project) (disk : FileTree) (fs : List Finding) (g : Generator)
    (service : Service σ) (state : σ) (override strict : Bool) :
    Except ProjectFailure GenerationResult → Prop where
  | unread (f : Failure) (inputs : p.inputs disk fs = .error f) :
      Generates p disk fs g service state override strict (.error (.source f))
  | ran (files : List (String × List Input)) (moves : List Move) (r : Run σ)
      (inputs : p.inputs disk fs = .ok files) (live : .cancel ∉ moves)
      (run : r = (Run.start { g with languages := p.languages } files state).run
        { g with languages := p.languages } service moves)
      (closed : r.closed = true) :
      Generates p disk fs g service state override strict (p.collect disk override strict r).1

/-- Two results are the same, but for the order of their errors: the documentation for the same
    symbols with the same texts in the same order, and the same patch; or the same failure. -/
def SameResult : Except ProjectFailure GenerationResult → Except ProjectFailure GenerationResult →
    Prop
  | .ok a, .ok b => a.docs.map Documentation.entry = b.docs.map Documentation.entry ∧
      a.patch = b.patch ∧ a.errors ~ b.errors
  | .error (.source f), .error (.source f') => f = f'
  | .error (.symbols es), .error (.symbols es') => es ~ es'
  | _, _ => False

/-! ### Sorting -/

theorem sortDocs_perm (docs : List Documentation) : sortDocs docs ~ docs :=
  List.mergeSort_perm docs _

theorem pairwise_sortDocs (docs : List Documentation) :
    (sortDocs docs).Pairwise fun a b => inOrder a.key b.key = true := by
  refine List.pairwise_mergeSort ?_ ?_ docs
  · intro a b c hab hbc
    exact inOrder_trans hab hbc
  · intro a b
    rw [Bool.or_eq_true]
    exact inOrder_total _ _

/-- **Sorting undoes a permutation**, as far as documentation for the same symbol is the same. -/
theorem map_sortDocs_of_perm {β : Type} (f : Documentation → β) {docs docs' : List Documentation}
    (hperm : docs ~ docs')
    (htie : ∀ d ∈ docs, ∀ d' ∈ docs, d.key = d'.key → f d = f d') :
    (sortDocs docs).map f = (sortDocs docs').map f := by
  have hsorted : ∀ ds : List Documentation, ((sortDocs ds).map fun d => (d.key, f d)).Pairwise
      fun x y => inOrder x.1 y.1 = true := fun ds => List.pairwise_map.mpr (pairwise_sortDocs ds)
  have hmem : ∀ {ds : List Documentation} {x : List String × β}, ds ~ docs →
      x ∈ (sortDocs ds).map (fun d => (d.key, f d)) → ∃ d ∈ docs, (d.key, f d) = x := by
    intro ds x hds hx
    obtain ⟨d, hd, rfl⟩ := List.mem_map.mp hx
    exact ⟨d, hds.mem_iff.mp ((sortDocs_perm ds).mem_iff.mp hd), rfl⟩
  have hsame : (sortDocs docs).map (fun d => (d.key, f d))
      = (sortDocs docs').map (fun d => (d.key, f d)) := by
    refine List.Perm.eq_of_pairwise ?_ (hsorted docs) (hsorted docs') ?_
    · -- entries that may stand in either order are for one symbol
      intro x y hx hy hxy hyx
      obtain ⟨d, hd, rfl⟩ := hmem (Perm.refl _) hx
      obtain ⟨d', hd', rfl⟩ := hmem hperm.symm hy
      have hkey : d.key = d'.key := inOrder_antisymm hxy hyx
      rw [hkey, htie d hd d' hd' hkey]
    · exact (((sortDocs_perm docs).trans hperm).trans (sortDocs_perm docs').symm).map _
  have hsnd := congrArg (List.map Prod.snd) hsame
  simpa [List.map_map, Function.comp_def] using hsnd

/-! ### What comes of a run -/

/-- What goes into a patch are the entries of documentation. -/
theorem patchDocs_congr (p : Project) (disk : FileTree) (override : Bool)
    {docs docs' : List Documentation}
    (h : docs.map Documentation.entry = docs'.map Documentation.entry) :
    p.patchDocs disk override docs = p.patchDocs disk override docs' := by
  unfold patchDocs
  generalize ({ patch := { folder := p.folder, languages := p.languages, override := override } }
    : Patching) = state
  -- two docs with the same entry patch alike: nothing else of a documentation reaches the file
  induction docs generalizing docs' state with
  | nil =>
    rw [List.map_nil, eq_comm, List.map_eq_nil_iff] at h
    rw [h]
  | cons d docs ih =>
    cases docs' with
    | nil => cases h
    | cons d' docs' =>
      obtain ⟨hentry, hrest⟩ := List.cons.inj h
      -- what a step reads of a documentation is its entry, its warning included
      have hstep : patchDoc disk state d = patchDoc disk state d' := by
        simp only [Documentation.entry, Prod.mk.injEq] at hentry
        simp only [patchDoc, skipWarning, hentry]
      rw [List.foldl_cons, List.foldl_cons, hstep]
      exact ih hrest _

/-- Runs with the same documentation and with the same errors, in any order, come to the same. -/
theorem collect_same {σ : Type} (p : Project) (disk : FileTree) (override strict : Bool)
    {r r' : Run σ} (hfailed : r.failed ~ r'.failed)
    (hdocs : (sortDocs (r.generated.flatMap GeneratedFile.docs)).map Documentation.entry
      = (sortDocs (r'.generated.flatMap GeneratedFile.docs)).map Documentation.entry) :
    SameResult (p.collect disk override strict r).1 (p.collect disk override strict r').1 := by
  -- nothing but the errors and the sorted documentation of a run goes into its result
  have herrors := hfailed.map SymbolError.generation
  unfold collect
  generalize r.failed.map SymbolError.generation = errors at herrors
  generalize r'.failed.map SymbolError.generation = errors' at herrors
  generalize sortDocs (r.generated.flatMap GeneratedFile.docs) = docs at hdocs
  generalize sortDocs (r'.generated.flatMap GeneratedFile.docs) = docs' at hdocs
  dsimp only
  rw [← herrors.isEmpty_eq, ← patchDocs_congr p disk override hdocs]
  split
  case isTrue => exact herrors
  case isFalse =>
    cases (p.patchDocs disk override docs).failure with
    | some f => rfl
    | none =>
      have hall := herrors.append_right (p.patchDocs disk override docs).errors
      dsimp only
      rw [← hall.isEmpty_eq]
      split
      case isTrue => exact hall
      case isFalse => exact ⟨hdocs, rfl, hall⟩

/-- Documentation that is in order and can be patched in is what a run comes to. -/
theorem collect_of_sorted {σ : Type} {p : Project} {disk : FileTree} {override : Bool} {r : Run σ}
    {docs : List Documentation} (hdocs : r.generated.flatMap GeneratedFile.docs = docs)
    (hsorted : docs.Pairwise fun a b => inOrder a.key b.key = true)
    (hpatched : (p.patchDocs disk override docs).failure = none) :
    ∃ x, (p.collect disk override false r).1 = .ok x ∧ x.docs = docs ∧
      x.patch = (p.patchDocs disk override docs).patch := by
  have hsame : sortDocs docs = docs := List.mergeSort_of_pairwise hsorted
  refine ⟨⟨(p.patchDocs disk override docs).patch, docs,
    r.failed.map SymbolError.generation ++ (p.patchDocs disk override docs).errors⟩, ?_, rfl, rfl⟩
  simp only [collect, hdocs, hsame, hpatched, Bool.false_and, Bool.false_eq_true, if_false]

/-- The documentation in a result is that of the run, sorted. -/
theorem docs_of_collect {σ : Type} {p : Project} {disk : FileTree} {override strict : Bool}
    {r : Run σ} {x : GenerationResult} (h : (p.collect disk override strict r).1 = .ok x) :
    x.docs = sortDocs (r.generated.flatMap GeneratedFile.docs) := by
  unfold collect at h
  dsimp only at h
  split at h
  case isTrue => cases h
  case isFalse =>
    split at h
    case h_1 => cases h
    case h_2 =>
      split at h
      case isTrue => cases h
      case isFalse =>
        cases h
        rfl

/-! ### What is asked about findings -/

/-- The input of a finding is for its symbol. -/
theorem inputOf_symbol {p : Project} {disk : FileTree} {f : Finding} {i : Input}
    (h : p.inputOf disk f = .ok i) : i.file = f.file ∧ i.identifier = f.identifier := by
  have hreturns : Returns (p.inputOf disk f)
      fun i => i.file = f.file ∧ i.identifier = f.identifier := by
    refine (Returns.of_any _).bind fun code _ => ?_
    dsimp only
    split
    case isTrue =>
      split
      case h_1 => exact .pure ⟨rfl, rfl⟩
      case h_2 => exact .error _ _
    case isFalse => exact .pure ⟨rfl, rfl⟩
  exact hreturns i h

/-- An input goes to the file that has its path, or to a new one behind the others. -/
theorem addInput_paths (i : Input) (groups : List (String × List Input)) :
    (addInput i groups).map Prod.fst = if i.file ∈ groups.map Prod.fst then groups.map Prod.fst
      else groups.map Prod.fst ++ [i.file] := by
  induction groups with
  | nil => rfl
  | cons group rest ih =>
    obtain ⟨path, is⟩ := group
    by_cases hpath : path = i.file
    · simp [addInput, hpath]
    -- another file's group: the new input goes behind it or into a later one
    · have hne : ¬ i.file = path := fun heq => hpath heq.symm
      by_cases hrest : i.file ∈ rest.map Prod.fst
      · rw [if_pos hrest] at ih
        simp only [addInput, beq_eq_false_iff_ne.mpr hpath, Bool.false_eq_true, if_false,
          List.map_cons, ih]
        rw [if_pos (List.mem_cons_of_mem _ hrest)]
      · rw [if_neg hrest] at ih
        simp only [addInput, beq_eq_false_iff_ne.mpr hpath, Bool.false_eq_true, if_false,
          List.map_cons, ih]
        rw [if_neg (by simpa [hne] using hrest)]
        rfl

/-- What is listed after an input was added: this input, and what was listed before. -/
theorem mem_addInput {i : Input} {groups : List (String × List Input)} {x : String × Input}
    (h : x ∈ (addInput i groups).flatMap listed) :
    x.2 = i ∨ x ∈ groups.flatMap listed := by
  induction groups with
  | nil =>
    have hx : x = (i.file, i) := by simpa [addInput, listed] using h
    exact .inl (by rw [hx])
  | cons group rest ih =>
    obtain ⟨path, is⟩ := group
    simp only [addInput] at h
    split at h
    case isTrue =>
      -- the group of the file itself: what is listed is what was there, and the new input
      simp only [List.flatMap_cons, listed, List.map_append, List.mem_append] at h ⊢
      rcases h with (hold | hnew) | hrest
      · exact .inr (.inl hold)
      · exact .inl (by simpa using congrArg Prod.snd (List.mem_singleton.mp hnew))
      · exact .inr (.inr hrest)
    case isFalse =>
      rw [List.flatMap_cons, List.mem_append] at h ⊢
      rcases h with hold | hrest
      · exact .inr (.inl hold)
      · exact (ih hrest).imp id .inr

/-- What is asked about findings: every file comes up once, and every input is that of a finding. -/
theorem inputs_cases {p : Project} {disk : FileTree} {fs : List Finding}
    {files : List (String × List Input)} (h : p.inputs disk fs = .ok files) :
    (files.map Prod.fst).Nodup ∧
      ∀ x ∈ files.flatMap listed, ∃ f ∈ fs, p.inputOf disk f = .ok x.2 := by
  -- the inputs go to their files one by one, whatever files there are before
  have hfold : ∀ (is : List Input) (groups : List (String × List Input)),
      (groups.map Prod.fst).Nodup →
      ((is.foldl (fun groups i => addInput i groups) groups).map Prod.fst).Nodup ∧
      ∀ x ∈ (is.foldl (fun groups i => addInput i groups) groups).flatMap listed,
        x.2 ∈ is ∨ x ∈ groups.flatMap listed := by
    intro is
    induction is with
    | nil => exact fun groups hnodup => ⟨hnodup, fun x hx => .inr hx⟩
    | cons i is ih =>
      intro groups hnodup
      have hnodup' : ((addInput i groups).map Prod.fst).Nodup := by
        rw [addInput_paths]
        split
        case isTrue => exact hnodup
        case isFalse hnew => exact List.nodup_append.mpr ⟨hnodup, by simp, by grind⟩
      obtain ⟨hend, hlisted⟩ := ih (addInput i groups) hnodup'
      refine ⟨hend, fun x hx => ?_⟩
      rcases hlisted x hx with hlater | hbefore
      · exact .inl (List.mem_cons_of_mem _ hlater)
      · rcases mem_addInput hbefore with heq | hold
        · exact .inl (heq ▸ List.mem_cons_self)
        · exact .inr hold
  have hreturns : Returns (p.inputs disk fs) fun files => (files.map Prod.fst).Nodup ∧
      ∀ x ∈ files.flatMap listed, ∃ f ∈ fs, p.inputOf disk f = .ok x.2 := by
    have hinputs : Returns (fs.mapM (p.inputOf disk)) fun is =>
        ∀ i ∈ is, ∃ f ∈ fs, p.inputOf disk f = .ok i :=
      Returns.mapM fun f hf i hi => ⟨f, hf, hi⟩
    refine hinputs.bind fun is his => .pure ?_
    obtain ⟨hnodup, hlisted⟩ := hfold is [] List.nodup_nil
    refine ⟨hnodup, fun x hx => ?_⟩
    rcases hlisted x hx with hinput | hnone
    · exact his x.2 hinput
    · cases hnone
  exact hreturns files h

/-! ### Symbols with one context -/

/-- Findings of the same symbol ask for the same input, so that the symbol has one context. -/
def OneContext (p : Project) (disk : FileTree) (fs : List Finding) : Prop :=
  ∀ f ∈ fs, ∀ f' ∈ fs, f.file = f'.file → f.identifier = f'.identifier →
    p.inputOf disk f = p.inputOf disk f'

/-- Findings of the same symbol are not documented with different texts. -/
def OneText (p : Project) (disk : FileTree) (fs : List Finding) (g : Generator)
    (reply : Context → Except ServiceFault String) : Prop :=
  ∀ f ∈ fs, ∀ f' ∈ fs, f.file = f'.file → f.identifier = f'.identifier →
    ∀ i i' text text', p.inputOf disk f = .ok i → p.inputOf disk f' = .ok i' →
      { g with languages := p.languages }.verdict reply i = .ok text →
      { g with languages := p.languages }.verdict reply i' = .ok text' → text = text'

/-- A symbol with one context is documented with one text. -/
theorem OneContext.oneText {p : Project} {disk : FileTree} {fs : List Finding}
    (h : p.OneContext disk fs) (g : Generator) (reply : Context → Except ServiceFault String) :
    p.OneText disk fs g reply := by
  intro f hf f' hf' hfile hidentifier i i' text text' hi hi' htext htext'
  have hsame : i = i' := by
    have hinput := h f hf f' hf' hfile hidentifier
    rw [hi, hi'] at hinput
    exact Except.ok.inj hinput
  rw [hsame, htext'] at htext
  exact (Except.ok.inj htext).symm

/-- The first declarations of each identifier have different identifiers, none of which came up
    before. -/
theorem firstOfEach_nodup (seen : List String) (ds : List Declaration) :
    ((FindOptions.firstOfEach seen ds).map Declaration.identifier).Nodup ∧
      ∀ d ∈ FindOptions.firstOfEach seen ds, d.identifier ∉ seen := by
  -- induction on the declarations: one that was seen is passed over, a new one is seen from there on
  induction ds generalizing seen with
  | nil => exact ⟨List.nodup_nil, fun d hd => by cases hd⟩
  | cons d ds ih =>
    unfold FindOptions.firstOfEach
    split
    case isTrue => exact ih seen
    case isFalse hnew =>
      obtain ⟨hnodup, hfresh⟩ := ih (d.identifier :: seen)
      have hunseen : d.identifier ∉ seen := by simpa using hnew
      constructor
      · refine List.nodup_cons.mpr ⟨?_, hnodup⟩
        intro hmem
        obtain ⟨d', hd', heq⟩ := List.mem_map.mp hmem
        exact hfresh d' hd' (heq ▸ List.mem_cons_self)
      · intro d' hd'
        rcases List.mem_cons.mp hd' with rfl | hlater
        · exact hunseen
        · exact fun hmem => hfresh d' hlater (List.mem_cons_of_mem _ hmem)

/-- The findings of a source are for its file, and there is one for each identifier. -/
theorem among_cases (o : FindOptions) (language file : String) (ds : List Declaration) :
    (∀ f ∈ o.among language file ds, f.file = file) ∧
      ∀ f ∈ o.among language file ds, ∀ f' ∈ o.among language file ds,
        f.identifier = f'.identifier → f = f' := by
  have hmem : ∀ f ∈ o.among language file ds, ∃ d ∈ FindOptions.firstOfEach [] (ds.filter o.wants),
      (⟨file, d.identifier, d.target, language⟩ : Finding) = f := by
    intro f hf
    exact List.mem_map.mp ((List.mergeSort_perm _ _).mem_iff.mp hf)
  constructor
  · intro f hf
    obtain ⟨d, -, rfl⟩ := hmem f hf
    rfl
  · intro f hf f' hf' heq
    obtain ⟨d, hd, rfl⟩ := hmem f hf
    obtain ⟨d', hd', rfl⟩ := hmem f' hf'
    have hsame : d = d' := List.inj_on_of_nodup_map (firstOfEach_nodup [] _).1 hd hd' heq
    rw [hsame]

/-- The findings of a file are for it, and there is one for each identifier. -/
theorem findIn_cases (p : Project) (disk : FileTree) (s : Search) (file : String) :
    Returns (p.findIn disk s file) fun fs => (∀ f ∈ fs, f.file = file) ∧
      ∀ f ∈ fs, ∀ f' ∈ fs, f.identifier = f'.identifier → f = f' := by
  unfold findIn
  split
  case h_1 => exact .pure (by simp)
  case h_2 l _ =>
    have hfound : ∀ code, Returns (s.options.find l code file) fun fs =>
        (∀ f ∈ fs, f.file = file) ∧ ∀ f ∈ fs, ∀ f' ∈ fs, f.identifier = f'.identifier → f = f' := by
      intro code
      refine (Returns.of_any _).bind fun tree _ => (Returns.of_any _).bind fun ds _ => ?_
      exact .pure (among_cases s.options l.name file ds)
    refine (Returns.of_any _).bind fun code _ => ((hfound code).mapError _).bind fun fs hfs => ?_
    refine .pure ⟨fun f hf => hfs.1 f (List.mem_of_mem_filter hf), fun f hf f' hf' => ?_⟩
    exact hfs.2 f (List.mem_of_mem_filter hf) f' (List.mem_of_mem_filter hf')

/-- **What is found has one context for each symbol**, whichever of it is listed and however
    often. -/
theorem oneContext_of_find {p : Project} {disk : FileTree} {s : Search} {all fs : List Finding}
    (h : p.find disk s = .ok all) (hsub : fs ⊆ all) : p.OneContext disk fs := by
  have hreturns : Returns (p.find disk s) fun all =>
      ∀ f ∈ all, ∃ file found, p.findIn disk s file = .ok found ∧ f ∈ found := by
    have hfiles : Returns ((p.sources disk s).mapM (p.findIn disk s)) fun found =>
        ∀ fs ∈ found, ∃ file, p.findIn disk s file = .ok fs :=
      Returns.mapM fun file _ fs hfs => ⟨file, hfs⟩
    refine hfiles.bind fun found hfound => .pure fun f hf => ?_
    obtain ⟨fs, hfs, hmem⟩ := List.mem_flatten.mp ((List.mergeSort_perm _ _).mem_iff.mp hf)
    obtain ⟨file, hfile⟩ := hfound fs hfs
    exact ⟨file, fs, hfile, hmem⟩
  intro f hf f' hf' hfile hidentifier
  obtain ⟨path, found, hfound, hmem⟩ := hreturns all h f (hsub hf)
  obtain ⟨path', found', hfound', hmem'⟩ := hreturns all h f' (hsub hf')
  obtain ⟨hpaths, hone⟩ := findIn_cases p disk s path found hfound
  obtain ⟨hpaths', -⟩ := findIn_cases p disk s path' found' hfound'
  -- both are findings of one file, and so the only one of their identifier
  have hpath : path = path' := by rw [← hpaths f hmem, ← hpaths' f' hmem', hfile]
  have hsame : found = found' := by
    rw [hpath, hfound'] at hfound
    exact (Except.ok.inj hfound).symm
  rw [hone f hmem f' (hsame ▸ hmem') hidentifier]

/-! ### Any two schedules -/

section Schedules

variable {σ : Type} {p : Project} {disk : FileTree} {fs : List Finding} {g : Generator}
  {service : Service σ} {reply : Context → Except ServiceFault String} {state : σ}

/-- Documentation that must come out is that of a finding of its symbol. -/
theorem finding_of_doc {files : List (String × List Input)} (hfiles : p.inputs disk fs = .ok files)
    {d : Documentation} (hd : d ∈ (Run.expected g reply files).filterMap Outcome.doc?) :
    ∃ f ∈ fs, d.key = [f.file, f.identifier] ∧ p.inputOf disk f = .ok d.input ∧
      g.verdict reply d.input = .ok d.text := by
  obtain ⟨⟨x, hx, hinput⟩, htext⟩ := Run.mem_docs_expected hd
  obtain ⟨f, hf, hof⟩ := (inputs_cases hfiles).2 x hx
  rw [hinput] at hof
  obtain ⟨hfile, hidentifier⟩ := inputOf_symbol hof
  exact ⟨f, hf, by rw [Documentation.key, hfile, hidentifier], hof, htext⟩

/-- Documentation for one symbol is the same entry of a patch, if the symbol has one text. -/
theorem OneText.entry_eq (h : p.OneText disk fs g reply) {files : List (String × List Input)}
    (hfiles : p.inputs disk fs = .ok files) {d d' : Documentation}
    (hd : d ∈ (Run.expected { g with languages := p.languages } reply files).filterMap
      Outcome.doc?)
    (hd' : d' ∈ (Run.expected { g with languages := p.languages } reply files).filterMap
      Outcome.doc?) (hkey : d.key = d'.key) : d.entry = d'.entry := by
  obtain ⟨f, hf, hsymbol, hinput, htext⟩ := finding_of_doc hfiles hd
  obtain ⟨f', hf', hsymbol', hinput', htext'⟩ := finding_of_doc hfiles hd'
  have hsame : f.file = f'.file ∧ f.identifier = f'.identifier := by
    rw [hsymbol, hsymbol'] at hkey
    simpa using hkey
  have htexts := h f hf f' hf' hsame.1 hsame.2 _ _ _ _ hinput hinput' htext htext'
  simp only [Documentation.key, List.cons.injEq, and_true] at hkey
  rw [Documentation.entry, Documentation.entry, hkey.1, hkey.2, htexts]

/-- Documentation for one symbol is the same, if the symbol has one context. -/
theorem OneContext.doc_eq (h : p.OneContext disk fs) {files : List (String × List Input)}
    (hfiles : p.inputs disk fs = .ok files) {d d' : Documentation}
    (hd : d ∈ (Run.expected g reply files).filterMap Outcome.doc?)
    (hd' : d' ∈ (Run.expected g reply files).filterMap Outcome.doc?) (hkey : d.key = d'.key) :
    d = d' := by
  obtain ⟨f, hf, hsymbol, hinput, htext⟩ := finding_of_doc hfiles hd
  obtain ⟨f', hf', hsymbol', hinput', htext'⟩ := finding_of_doc hfiles hd'
  have hsame : f.file = f'.file ∧ f.identifier = f'.identifier := by
    rw [hsymbol, hsymbol'] at hkey
    simpa using hkey
  -- the two findings have one context, so the service is asked the same question
  have hinputs : d.input = d'.input := by
    have hof := h f hf f' hf' hsame.1 hsame.2
    rw [hinput, hinput'] at hof
    exact Except.ok.inj hof
  -- and it answers it with the same text
  have htexts : d.text = d'.text := by
    rw [hinputs, htext'] at htext
    exact (Except.ok.inj htext).symm
  calc d = ⟨d.input, d.text⟩ := rfl
    _ = ⟨d'.input, d'.text⟩ := by rw [hinputs, htexts]
    _ = d' := rfl

/-- What generating comes to, unless the inputs cannot be read: it is what comes of a run whose
    errors and documentation are those that the inputs must have, in some order.  The number of
    workers does not matter. -/
theorem results_of_generates (hnamed : p.languages.Named) (hservice : service.Replies reply)
    (hlimits : Run.Unlimited g) {override strict : Bool} {fileWorkers symbolWorkers : Int}
    {a : Except ProjectFailure GenerationResult}
    (h : p.Generates disk fs { g with fileWorkers := fileWorkers, symbolWorkers := symbolWorkers }
      service state override strict a) :
    (∃ f, p.inputs disk fs = .error f ∧ a = .error (.source f)) ∨
    ∃ (files : List (String × List Input)) (r : Run σ), p.inputs disk fs = .ok files ∧
      a = (p.collect disk override strict r).1 ∧
      r.failed ~ (Run.expected { g with languages := p.languages } reply files).filterMap
        Outcome.error? ∧
      r.generated.flatMap GeneratedFile.docs
        ~ (Run.expected { g with languages := p.languages } reply files).filterMap
          Outcome.doc? := by
  -- the files may not be readable, and then there is no run at all
  cases h with
  | unread f hf => exact .inl ⟨f, hf, rfl⟩
  -- the run is live, so what it failed on and wrote down is what the inputs ask for
  | ran files moves r hfiles hmoves hrun hclosed =>
    subst hrun
    refine .inr ⟨files, _, hfiles, rfl, ?_⟩
    exact Run.results_perm_expected hnamed hservice (inputs_cases hfiles).1 hlimits
      (Run.live_of_run hservice rfl hmoves) hclosed

/-- **Two schedules, one set of results.**  Either the inputs cannot be read in both, or the two
    runs have the same errors and the same documentation up to order. -/
theorem generates_pair (hnamed : p.languages.Named) (hservice : service.Replies reply)
    (hlimits : Run.Unlimited g) {override strict : Bool}
    {fileWorkers symbolWorkers fileWorkers' symbolWorkers' : Int}
    {a b : Except ProjectFailure GenerationResult}
    (ha : p.Generates disk fs { g with fileWorkers := fileWorkers, symbolWorkers := symbolWorkers }
      service state override strict a)
    (hb : p.Generates disk fs
      { g with fileWorkers := fileWorkers', symbolWorkers := symbolWorkers' } service state override
      strict b) :
    (∃ f, a = .error (.source f) ∧ b = .error (.source f)) ∨
    ∃ (files : List (String × List Input)) (r r' : Run σ), p.inputs disk fs = .ok files ∧
      a = (p.collect disk override strict r).1 ∧ b = (p.collect disk override strict r').1 ∧
      r.failed ~ r'.failed ∧
      r.generated.flatMap GeneratedFile.docs ~ r'.generated.flatMap GeneratedFile.docs ∧
      ∀ d ∈ r.generated.flatMap GeneratedFile.docs,
        d ∈ (Run.expected { g with languages := p.languages } reply files).filterMap
          Outcome.doc? := by
  -- both runs read the files, or neither; where they do, both are compared with what is expected
  rcases results_of_generates hnamed hservice hlimits ha with
    ⟨f, hf, rfl⟩ | ⟨files, r, hfiles, rfl, hfailed, hdocs⟩
  · rcases results_of_generates hnamed hservice hlimits hb with
      ⟨f', hf', rfl⟩ | ⟨files', r', hfiles', -⟩
    · have hsame : f = f' := Except.error.inj (hf.symm.trans hf')
      exact .inl ⟨f, rfl, by rw [hsame]⟩
    · cases hf.symm.trans hfiles'
  · rcases results_of_generates hnamed hservice hlimits hb with
      ⟨f', hf', rfl⟩ | ⟨files', r', hfiles', rfl, hfailed', hdocs'⟩
    · cases hfiles.symm.trans hf'
    · have hsame : files = files' := Except.ok.inj (hfiles.symm.trans hfiles')
      subst hsame
      exact .inr ⟨files, r, r', hfiles, rfl, rfl, hfailed.trans hfailed'.symm,
        hdocs.trans hdocs'.symm, fun d hd => hdocs.mem_iff.mp hd⟩

/-- Generating is done in one of the schedules: its workers take turns until the streams are
    closed. -/
theorem generates_generate (hservice : service.Replies reply) (override strict : Bool) :
    p.Generates disk fs g service state override strict
      (p.generate disk fs g service state override strict).1 := by
  unfold generate
  cases hinputs : p.inputs disk fs with
  | error f => exact .unread f hinputs
  | ok files =>
    obtain ⟨moves, hmoves, hrun⟩ := Run.driveFrom_eq_run { g with languages := p.languages } service
      (Run.start { g with languages := p.languages } files state).enough
      (Run.start { g with languages := p.languages } files state)
    refine .ran files moves _ hinputs hmoves hrun (Run.drive_closed ?_ files state)
    intro c s
    rw [hservice c s]
    exact Answer.ofReply_ne_never _

end Schedules

/-- **The schedule does not show in what is generated.**  Let a service answer by what it is asked
    alone, and let runs be neither limited nor cancelled.  Any two ways in which the workers take
    turns, with any two numbers of workers, then come to the same:

    * for all findings, the same documentation for the same symbols in the same order, but for the
      order among different documentation for one symbol;
    * unless a symbol is listed in different ways and gets different texts for them, the same
      documentation, patch and errors, or the same failure of both;
    * when the findings of a symbol ask for the same, the very same documentation; what is found
      is of this kind, whichever of it is listed and however often.

    Generating is one of these ways. -/
theorem generate_ignores_schedule {σ : Type} (p : Project) (languages : List Language)
    (disk : FileTree) (fs : List Finding) (g : Generator) (service : Service σ)
    (reply : Context → Except ServiceFault String) (state : σ) (override strict : Bool)
    (fileWorkers symbolWorkers fileWorkers' symbolWorkers' : Int)
    (hp : p.languages = Languages.ofList languages) (hlimits : Run.Unlimited g)
    (hservice : service.Replies reply) {a b : Except ProjectFailure GenerationResult}
    (ha : p.Generates disk fs { g with fileWorkers := fileWorkers, symbolWorkers := symbolWorkers }
      service state override strict a)
    (hb : p.Generates disk fs
      { g with fileWorkers := fileWorkers', symbolWorkers := symbolWorkers' } service state override
      strict b) :
    (∀ x y, a = .ok x → b = .ok y →
      x.docs ~ y.docs ∧ x.docs.map Documentation.key = y.docs.map Documentation.key) ∧
    (p.OneText disk fs g reply → SameResult a b) ∧
    (p.OneContext disk fs → SameResult a b ∧ ∀ x y, a = .ok x → b = .ok y → x.docs = y.docs) ∧
    (∀ s found, p.find disk s = .ok found → fs ⊆ found → p.OneContext disk fs) ∧
    p.Generates disk fs g service state override strict
      (p.generate disk fs g service state override strict).1 := by
  have hnamed : p.languages.Named := by
    rw [hp]
    exact Languages.named_ofList languages
  have hpair := generates_pair hnamed hservice hlimits ha hb
  -- equal entries are enough for equal results, since sorting brings both lists into one order
  have hsame : p.OneText disk fs g reply → SameResult a b := by
    intro hone
    rcases hpair with ⟨f, rfl, rfl⟩ | ⟨files, r, r', hfiles, rfl, rfl, hfailed, hdocs, hmem⟩
    · rfl
    · refine collect_same p disk override strict hfailed ?_
      exact map_sortDocs_of_perm Documentation.entry hdocs fun d hd d' hd' =>
        hone.entry_eq hfiles (hmem d hd) (hmem d' hd')
  refine ⟨?_, hsame, ?_, fun s found => oneContext_of_find, generates_generate hservice _ _⟩
  -- without either condition the docs are still the same bag, in the order of their keys
  · intro x y hx hy
    rcases hpair with ⟨f, ha, -⟩ | ⟨files, r, r', hfiles, ha, hb, hfailed, hdocs, hmem⟩
    · cases hx.symm.trans ha
    · rw [docs_of_collect (ha.symm.trans hx), docs_of_collect (hb.symm.trans hy)]
      refine ⟨((sortDocs_perm _).trans hdocs).trans (sortDocs_perm _).symm, ?_⟩
      exact map_sortDocs_of_perm Documentation.key hdocs fun d _ d' _ hkey => hkey
  · intro hone
    refine ⟨hsame (hone.oneText g reply), fun x y hx hy => ?_⟩
    rcases hpair with ⟨f, ha, -⟩ | ⟨files, r, r', hfiles, ha, hb, hfailed, hdocs, hmem⟩
    · cases hx.symm.trans ha
    -- one context makes the docs themselves equal, so the sorted lists are equal too
    · rw [docs_of_collect (ha.symm.trans hx), docs_of_collect (hb.symm.trans hy)]
      have hsorted := map_sortDocs_of_perm id hdocs fun d hd d' hd' =>
        hone.doc_eq hfiles (hmem d hd) (hmem d' hd')
      simpa using hsorted

/-- Two symbols, one of them listed twice: with one worker they are settled in their order, with two
    workers the second comes first, and the results are the same. -/
theorem generate_ignores_schedule_of_two_symbols :
    let code := encode "package a\n\nfunc F() {}\n\nfunc G() {}\n"
    let disk : FileTree := [.file "a.go" code]
    let p : Project := { folder := {} }
    let names := ["func:F", "func:G", "func:F"]
    let fs := names.map fun name => (⟨"a.go", name, "", "go"⟩ : Finding)
    let files := [("a.go", names.map fun name => (⟨code, "go", name, "a.go", ""⟩ : Input))]
    let service : Service Unit := ⟨fun c _ => (⟨false, .text c.input.identifier⟩, ())⟩
    let settle s := [Move.symbol 0 s, .symbol 0 s, .symbol 0 s, .answer 0 s]
    let ending := [Move.file 0, .file 0, .close]
    let one := (Run.start { fileWorkers := 1, symbolWorkers := 1 } files ()).run
      { fileWorkers := 1, symbolWorkers := 1 } service
      ([.file 0] ++ settle 0 ++ settle 0 ++ settle 0 ++ [.symbol 0 0] ++ ending)
    let two := (Run.start { fileWorkers := 1, symbolWorkers := 2 } files ()).run
      { fileWorkers := 1, symbolWorkers := 2 } service
      ([.file 0, .symbol 0 0] ++ settle 1 ++ settle 1 ++ [.symbol 0 1] ++ settle 0
        ++ [.answer 0 0, .symbol 0 0] ++ ending)
    let order (r : Run Unit) := r.generated.flatMap fun f => f.docs.map (·.input.identifier)
    p.inputs disk fs = .ok files ∧ p.OneContext disk fs ∧
      order one = ["func:F", "func:G", "func:F"] ∧ order two = ["func:G", "func:F", "func:F"] ∧
      SameResult (p.collect disk false false one).1 (p.collect disk false false two).1 := by
  intro code disk p names fs files service settle ending one two order
  have hfiles : p.inputs disk fs = .ok files := rfl
  have hone : p.OneContext disk fs := by
    intro f hf f' hf' hfile hidentifier
    obtain ⟨name, -, rfl⟩ := List.mem_map.mp hf
    obtain ⟨name', -, rfl⟩ := List.mem_map.mp hf'
    cases hidentifier
    rfl
  have hservice : service.Replies fun c => .ok c.input.identifier := fun _ _ => rfl
  refine ⟨hfiles, hone, by decide +kernel, by decide +kernel, ?_⟩
  refine ((generate_ignores_schedule p [.go, .python] disk fs {} service _ () false false 1 1 1 2
    rfl ⟨rfl, rfl, rfl⟩ hservice ?_ ?_).2.2.1 hone).1
  · exact .ran files _ one hfiles (by decide) rfl (by decide +kernel)
  · exact .ran files _ two hfiles (by decide) rfl (by decide +kernel)

/-- A symbol that is listed in two ways, with a text for each: with one worker the first comes first,
    with two workers the second may, and neither the documentation nor the patch is the same. -/
theorem schedule_shows_in_two_texts :
    let code := encode "package a\n\nfunc F() {}\n"
    let told text := encode ("package a\n\n// " ++ text ++ "\nfunc F() {}\n")
    let disk : FileTree := [.file "a.go" code]
    let p : Project := { folder := {} }
    let fs := ["one", "two"].map fun target => (⟨"a.go", "func:F", target, "go"⟩ : Finding)
    let service : Service Unit := ⟨fun c _ => (⟨false, .text c.input.target⟩, ())⟩
    (service.Replies fun c => .ok c.input.target) ∧
      ∃ x y, p.Generates disk fs { fileWorkers := 1, symbolWorkers := 1 } service () false false (.ok x) ∧
        p.Generates disk fs { fileWorkers := 1, symbolWorkers := 2 } service () false false (.ok y) ∧
        x.docs.map (·.input.target) = ["one", "two"] ∧ y.docs.map (·.input.target) = ["two", "one"] ∧
        x.patch.dryRun = .ok [("a.go", told "one")] ∧ y.patch.dryRun = .ok [("a.go", told "two")] := by
  intro code told disk p fs service
  let docsOf (targets : List String) : List Documentation :=
    targets.map fun target => ⟨⟨code, "go", "func:F", "a.go", target⟩, target⟩
  let files := [("a.go", (docsOf ["one", "two"]).map Documentation.input)]
  let settle s := [Move.symbol 0 s, .symbol 0 s, .symbol 0 s, .answer 0 s]
  let ending := [Move.file 0, .file 0, .close]
  let g : Generator := { fileWorkers := 1, symbolWorkers := 1 }
  let g' : Generator := { fileWorkers := 1, symbolWorkers := 2 }
  let moves := [.file 0] ++ settle 0 ++ settle 0 ++ [.symbol 0 0] ++ ending
  let moves' := [.file 0, .symbol 0 0] ++ settle 1 ++ [.symbol 0 1] ++ settle 0
    ++ [.answer 0 0, .symbol 0 0] ++ ending
  let one := (Run.start g files ()).run g service moves
  let two := (Run.start g' files ()).run g' service moves'
  have hfiles : p.inputs disk fs = .ok files := rfl
  -- the documentation for one symbol is in order, whatever came first, and the first of it is patched in
  have hpatched : ∀ x ∈ [("one", "two"), ("two", "one")],
      ((docsOf [x.1, x.2]).Pairwise fun a b => inOrder a.key b.key = true) ∧
      (p.patchDocs disk false (docsOf [x.1, x.2])).failure.isNone = true ∧
      (p.patchDocs disk false (docsOf [x.1, x.2])).patch.files.map (fun y =>
        (y.1, (y.2.render y.1).toOption)) = [("a.go", some (told x.1))] := by
    decide +kernel
  have hresult (g : Generator) (r : Run Unit) (x : String × String)
      (hran : p.Generates disk fs g service () false false (p.collect disk false false r).1)
      (h : x ∈ [("one", "two"), ("two", "one")])
      (hdocs : r.generated.flatMap GeneratedFile.docs = docsOf [x.1, x.2]) :
      ∃ result, p.Generates disk fs g service () false false (.ok result) ∧
        result.docs.map (·.input.target) = [x.1, x.2] ∧
        result.patch.dryRun = .ok [("a.go", told x.1)] := by
    obtain ⟨hsorted, hfine, hrendered⟩ := hpatched x h
    obtain ⟨result, hok, hin, hpatch⟩ :=
      collect_of_sorted hdocs hsorted (Option.isNone_iff_eq_none.mp hfine)
    rw [hok] at hran
    refine ⟨result, hran, by rw [hin]; rfl, ?_⟩
    rw [hpatch]
    exact Patch.dryRun_of_rendered hrendered (List.pairwise_singleton _ _)
  have hone : one.generated.flatMap GeneratedFile.docs = docsOf ["one", "two"] := by decide +kernel
  have htwo : two.generated.flatMap GeneratedFile.docs = docsOf ["two", "one"] := by decide +kernel
  have hran : p.Generates disk fs g service () false false (p.collect disk false false one).1 :=
    .ran files moves one hfiles (by decide) rfl (by decide +kernel)
  have hran' : p.Generates disk fs g' service () false false (p.collect disk false false two).1 :=
    .ran files moves' two hfiles (by decide) rfl (by decide +kernel)
  obtain ⟨x, hx, hxdocs, hxpatch⟩ := hresult g one ("one", "two") hran (by simp) hone
  obtain ⟨y, hy, hydocs, hypatch⟩ := hresult g' two ("two", "one") hran' (by simp) htwo
  exact ⟨fun _ _ => rfl, x, y, hx, hy, hxdocs, hydocs, hxpatch, hypatch⟩

end Project

end Docsmith
