import Docsmith.Project
import Docsmith.Proofs.Files.Discovery
import Docsmith.Proofs.Files.Listing
import Docsmith.Proofs.Language.Failures
import Docsmith.Proofs.Patch.Findings
import Docsmith.Proofs.Project.Schedule
import Docsmith.Proofs.Returns
import Docsmith.Proofs.Text.Order
import Mathlib.Data.Prod.Lex

namespace Docsmith

open Text

/-!
# What is found in a repository

A language is only known by what it makes of a source: it refuses it at a row, or it lists declarations, and it may
list any.  Declarations are filtered before one is kept for each identifier, so that no symbol is lost to a
declaration that does not count, and what is found in all the files is sorted once more.

* `Finding.symbol`: what findings are told apart by.
* `Project.Holds`: the language of a file and its source; `Project.Declares`, `Project.Parses`, `Project.Refuses`,
  `Project.Answers`: what the language makes of the source.
* `Project.Sought`: the symbols that are looked for.
* `FindOptions.exists_mem_among`: filtering first loses no identifier.
* `Finding.pairwise_sort`: findings of different symbols are sorted into a strict order.
* `Project.FoundIn`, `Project.foundIn`: the findings of one file.
* `Project.pairwise_sources`, `Project.read_of_mem_sources`: the files that are looked at.
* `Project.find_of_failing`: the first file that fails decides.
* `Project.returns_find`: the findings of all files.
* `Project.find_reports_exactly`: what is found, or the file that is named.
-/

/-- The symbol of a finding, by its file and identifier. -/
def Finding.symbol (f : Finding) : String × String := (f.file, f.identifier)

namespace Finding

theorem sort_perm (fs : List Finding) : (sort fs).Perm fs := List.mergeSort_perm fs _

/-- Findings of different symbols are sorted by file and identifier alone. -/
theorem lex_of_before {a b : Finding} (hle : a.before b = true) (hne : a.symbol ≠ b.symbol) :
    Prod.Lex (· < ·) (· < ·) a.symbol b.symbol := by
  rw [Prod.lex_def]
  unfold before key at hle
  rw [inOrder_cons, inOrder_cons] at hle
  rcases hle with hfile | ⟨hfile, hidentifier | ⟨hidentifier, -⟩⟩
  · exact .inl hfile
  · exact .inr ⟨hfile, hidentifier⟩
  · exact absurd (Prod.ext hfile hidentifier) hne

/-- **Findings of different symbols are sorted into a strict order**, by file and identifier. -/
theorem pairwise_sort {fs : List Finding} (hnodup : (fs.map symbol).Nodup) :
    ((sort fs).map symbol).Pairwise (Prod.Lex (· < ·) (· < ·)) := by
  have hsorted : (sort fs).Pairwise fun a b => a.before b = true := by
    refine List.pairwise_mergeSort ?_ ?_ fs
    · intro a b c hab hbc
      exact inOrder_trans hab hbc
    · intro a b
      rw [Bool.or_eq_true]
      exact inOrder_total a.key b.key
  have hapart : (sort fs).Pairwise fun a b => a.symbol ≠ b.symbol :=
    List.pairwise_map.mp (((sort_perm fs).map symbol).nodup_iff.mpr hnodup)
  exact List.pairwise_map.mpr ((hsorted.and hapart).imp fun ⟨hle, hne⟩ => lex_of_before hle hne)

end Finding

/-! ### The findings of one file -/

namespace FindOptions

variable {o : FindOptions} {ds : List Declaration} {identifier : String}

/-- A declaration that counts is exported, and neither a test nor documented unless this was asked for. -/
theorem wants_iff {d : Declaration} : o.wants d = true ↔ d.exported = true ∧
    (d.test = true → o.includeTests = true) ∧ (d.documented = true → o.includeDocumented = true) := by
  cases htest : d.test <;> cases hdocumented : d.documented <;>
    simp [wants, htest, hdocumented, and_assoc]

/-- The first declarations of each identifier are of all the identifiers that did not come up before. -/
theorem exists_mem_firstOfEach {seen : List String} (hnew : identifier ∉ seen) :
    (∃ d ∈ firstOfEach seen ds, d.identifier = identifier) ↔ ∃ d ∈ ds, d.identifier = identifier := by
  constructor
  · rintro ⟨d, hd, hname⟩
    exact ⟨d, firstOfEach_subset seen ds hd, hname⟩
  · intro h
    induction ds generalizing seen with
    | nil => exact h
    | cons first rest ih =>
      unfold firstOfEach
      by_cases hfirst : first.identifier = identifier
      · subst hfirst
        rw [if_neg (by simpa using hnew)]
        exact ⟨first, List.mem_cons_self, rfl⟩
      · have hrest : ∃ d ∈ rest, d.identifier = identifier := by
          obtain ⟨d, hd, hname⟩ := h
          rcases List.mem_cons.mp hd with rfl | hd
          · exact absurd hname hfirst
          · exact ⟨d, hd, hname⟩
        split
        · exact ih hnew hrest
        · -- the identifier that came up is another one
          have hnew' : identifier ∉ first.identifier :: seen := by simp [Ne.symm hfirst, hnew]
          obtain ⟨d, hd, hname⟩ := ih hnew' hrest
          exact ⟨d, List.mem_cons_of_mem _ hd, hname⟩

/-- **Filtering first loses no identifier**: one is found if any declaration of it counts. -/
theorem exists_mem_among {language file : String} :
    (∃ f ∈ o.among language file ds, f.identifier = identifier) ↔
      ∃ d ∈ ds, d.identifier = identifier ∧ o.wants d = true := by
  have hamong : (∃ f ∈ o.among language file ds, f.identifier = identifier) ↔
      ∃ d ∈ firstOfEach [] (ds.filter o.wants), d.identifier = identifier := by
    unfold among
    simp only [List.mem_mergeSort, List.mem_map, exists_exists_and_eq_and]
  rw [hamong, exists_mem_firstOfEach List.not_mem_nil]
  simp only [List.mem_filter, and_assoc, and_comm (a := o.wants _ = true)]

/-- The findings among declarations are of different symbols. -/
theorem nodup_among (o : FindOptions) (language file : String) (ds : List Declaration) :
    ((o.among language file ds).map Finding.symbol).Nodup := by
  have hnodup : ((firstOfEach [] (ds.filter o.wants)).map Declaration.identifier).Nodup :=
    (Project.firstOfEach_nodup [] _).1
  have hsymbols := hnodup.map (Prod.mk_right_injective file)
  rw [List.map_map] at hsymbols
  unfold among
  rw [((List.mergeSort_perm _ _).map Finding.symbol).nodup_iff, List.map_map]
  exact hsymbols

end FindOptions

namespace Project

/-- The file is one of a language, and this source is in it. -/
def Holds (p : Project) (disk : FileTree) (file : String) (l : Language) (code : Bytes) : Prop :=
  p.languages.forFile? file = some l ∧ p.folder.read disk file = .ok code

/-- The language of the file lists these declarations in it. -/
def Declares (p : Project) (disk : FileTree) (file : String) (ds : List Declaration) : Prop :=
  ∃ l code t, p.Holds disk file l code ∧ l.parse code = .ok t ∧ l.declarations t = .ok ds

/-- The language of the file, if there is one, can parse it. -/
def Parses (p : Project) (disk : FileTree) (file : String) : Prop :=
  ∀ l code, p.Holds disk file l code → ∃ t, l.parse code = .ok t

/-- The file breaks the grammar of its language at a row. -/
def Refuses (p : Project) (disk : FileTree) (file language : String) (row : Int) : Prop :=
  ∃ l code path, p.Holds disk file l code ∧ l.parse code = .error (.unparsable language row path)

/-- The language of the file, if there is one, lists declarations in it, unless the file breaks its grammar. -/
def Answers (p : Project) (disk : FileTree) (file : String) : Prop :=
  ∀ l code, p.Holds disk file l code → (∃ t ds, l.parse code = .ok t ∧ l.declarations t = .ok ds) ∨
    ∃ language row path, l.parse code = .error (.unparsable language row path)

/-- The symbol is looked for: a declaration of it in the file is exported, and neither a test nor documented unless
    this was asked for, and one of the expressions matches the identifier if there are any. -/
def Sought (p : Project) (disk : FileTree) (s : Search) (file identifier : String) : Prop :=
  (∃ ds, p.Declares disk file ds ∧ ∃ d ∈ ds, d.identifier = identifier ∧ d.exported = true ∧
    (d.test = true → s.options.includeTests = true) ∧
    (d.documented = true → s.options.includeDocumented = true)) ∧
  (p.matching = [] ∨ ∃ r ∈ p.matching, r.search identifier = true)

variable {p : Project} {disk : FileTree} {s : Search} {file : String}

theorem Holds.unique {l l' : Language} {code code' : Bytes} (h : p.Holds disk file l code)
    (h' : p.Holds disk file l' code') : l = l' ∧ code = code' :=
  ⟨Option.some.inj (h.1.symm.trans h'.1), Except.ok.inj (h.2.symm.trans h'.2)⟩

/-- A file has one list of declarations. -/
theorem Declares.unique {ds ds' : List Declaration} (h : p.Declares disk file ds) (h' : p.Declares disk file ds') :
    ds = ds' := by
  obtain ⟨l, code, t, hholds, ht, hds⟩ := h
  obtain ⟨l', code', t', hholds', ht', hds'⟩ := h'
  obtain ⟨rfl, rfl⟩ := hholds.unique hholds'
  cases ht.symm.trans ht'
  exact Except.ok.inj (hds.symm.trans hds')

/-- A file with declarations is answered for. -/
theorem Declares.answers {ds : List Declaration} (h : p.Declares disk file ds) : p.Answers disk file := by
  obtain ⟨l, code, t, hholds, ht, hds⟩ := h
  intro l' code' hholds'
  obtain ⟨rfl, rfl⟩ := hholds.unique hholds'
  exact .inl ⟨t, ds, ht, hds⟩

/-- A file with declarations is parsed. -/
theorem Declares.parses {ds : List Declaration} (h : p.Declares disk file ds) : p.Parses disk file := by
  obtain ⟨l, code, t, hholds, ht, -⟩ := h
  intro l' code' hholds'
  obtain ⟨rfl, rfl⟩ := hholds.unique hholds'
  exact ⟨t, ht⟩

/-- A file that is refused is answered for. -/
theorem Refuses.answers {language : String} {row : Int} (h : p.Refuses disk file language row) :
    p.Answers disk file := by
  obtain ⟨l, code, path, hholds, herror⟩ := h
  intro l' code' hholds'
  obtain ⟨rfl, rfl⟩ := hholds.unique hholds'
  exact .inr ⟨language, row, path, herror⟩

theorem Refuses.not_parses {language : String} {row : Int} (h : p.Refuses disk file language row) :
    ¬ p.Parses disk file := by
  obtain ⟨l, code, path, hholds, herror⟩ := h
  intro hparses
  obtain ⟨t, ht⟩ := hparses l code hholds
  cases ht.symm.trans herror

/-- A file that cannot be parsed is refused. -/
theorem Answers.refuses (h : p.Answers disk file) (hnot : ¬ p.Parses disk file) :
    ∃ language row, p.Refuses disk file language row := by
  unfold Parses at hnot
  push Not at hnot
  obtain ⟨l, code, hholds, hnot⟩ := hnot
  rcases h l code hholds with ⟨t, -, ht, -⟩ | ⟨language, row, path, herror⟩
  · exact absurd ht (hnot t)
  · exact ⟨language, row, l, code, path, hholds, herror⟩

theorem wants_eq_true_iff {identifier : String} :
    p.wants identifier = true ↔ p.matching = [] ∨ ∃ r ∈ p.matching, r.search identifier = true := by
  rw [wants, Bool.or_eq_true, List.isEmpty_iff, List.any_eq_true]

/-- What is found in a file: one finding for each symbol in it that is looked for. -/
structure FoundIn (p : Project) (disk : FileTree) (s : Search) (file : String) (fs : List Finding) : Prop where
  nodup : (fs.map Finding.symbol).Nodup
  mem_iff : ∀ symbol, symbol ∈ fs.map Finding.symbol ↔ symbol.1 = file ∧ p.Sought disk s file symbol.2

/-- The findings among the declarations of a file, as far as their identifiers count. -/
theorem foundIn_among {l : Language} {ds : List Declaration} (hds : p.Declares disk file ds) :
    p.FoundIn disk s file ((s.options.among l.name file ds).filter fun f => p.wants f.identifier) where
  nodup := (s.options.nodup_among l.name file ds).sublist (List.filter_sublist.map Finding.symbol)
  mem_iff := by
    rintro ⟨path, identifier⟩
    -- a finding of the file is one of its wanted declarations, told apart by the identifier
    constructor
    · intro h
      obtain ⟨f, hf, hsymbol⟩ := List.mem_map.mp h
      obtain ⟨rfl, rfl⟩ := Prod.mk.inj hsymbol
      obtain ⟨hf, hwants⟩ := List.mem_filter.mp hf
      obtain ⟨d, hd, hname, hcounts⟩ := FindOptions.exists_mem_among.mp ⟨f, hf, rfl⟩
      exact ⟨(among_cases s.options l.name file ds).1 f hf,
        ⟨ds, hds, d, hd, hname, FindOptions.wants_iff.mp hcounts⟩, wants_eq_true_iff.mp hwants⟩
    · rintro ⟨rfl, ⟨ds', hds', d, hd, hname, hcounts⟩, hmatching⟩
      rw [hds'.unique hds] at hd
      obtain ⟨f, hf, rfl⟩ := FindOptions.exists_mem_among.mpr ⟨d, hd, hname, FindOptions.wants_iff.mpr hcounts⟩
      refine List.mem_map.mpr ⟨f, List.mem_filter.mpr ⟨hf, wants_eq_true_iff.mpr hmatching⟩, ?_⟩
      exact Prod.ext ((among_cases s.options l.name _ ds).1 f hf) rfl

/-- **The findings of a file** are of the symbols in it that are looked for. -/
theorem foundIn (p : Project) (disk : FileTree) (s : Search) (file : String) :
    Returns (p.findIn disk s file) (p.FoundIn disk s file) := by
  unfold findIn
  split
  case h_1 hl =>
    -- nothing is declared without a language
    refine .pure ⟨List.nodup_nil, fun symbol => iff_of_false List.not_mem_nil ?_⟩
    rintro ⟨-, ⟨ds, ⟨l, -, -, ⟨hl', -⟩, -⟩, -⟩, -⟩
    cases hl.symm.trans hl'
  case h_2 l hl =>
    have hfind : ∀ code, Returns (s.options.find l code file) fun fs => ∃ t ds, l.parse code = .ok t ∧
        l.declarations t = .ok ds ∧ s.options.among l.name file ds = fs := by
      intro code
      refine (Returns.self (l.parse code)).bind fun t ht => (Returns.self (l.declarations t)).bind fun ds hds => ?_
      exact .pure ⟨t, ds, ht, hds, rfl⟩
    refine (Returns.self _).bind fun code hread => ((hfind code).mapError _).bind fun fs hfs => .pure ?_
    obtain ⟨t, ds, ht, hds, rfl⟩ := hfs
    exact foundIn_among ⟨l, code, t, ⟨hl, hread⟩, ht, hds⟩

/-- The findings of a file whose language and content are known. -/
theorem findIn_eq {l : Language} {code : Bytes} (h : p.Holds disk file l code) :
    p.findIn disk s file = ((s.options.find l code file).mapError (·.inFile file)).map
      fun fs => fs.filter fun f => p.wants f.identifier := by
  unfold findIn
  rw [h.1]
  dsimp only
  rw [h.2]
  change ((s.options.find l code file).mapError _ >>= _) = _
  cases s.options.find l code file <;> rfl

/-- A file that is parsed and answered for has findings, though there may be none. -/
theorem exists_findIn (hread : ∃ code, p.folder.read disk file = .ok code) (hanswers : p.Answers disk file)
    (hparses : p.Parses disk file) : ∃ fs, p.findIn disk s file = .ok fs := by
  obtain ⟨code, hread⟩ := hread
  cases hl : p.languages.forFile? file with
  | none => exact ⟨[], by rw [findIn, hl]; rfl⟩
  | some l =>
    have hholds : p.Holds disk file l code := ⟨hl, hread⟩
    obtain ⟨t, ht⟩ := hparses l code hholds
    rcases hanswers l code hholds with ⟨t', ds, ht', hds⟩ | ⟨language, row, path, herror⟩
    · obtain ⟨fs, hfind⟩ : ∃ fs, s.options.find l code file = .ok fs := ⟨_, FindOptions.find_eq ht' hds⟩
      refine ⟨fs.filter fun f => p.wants f.identifier, ?_⟩
      rw [findIn_eq hholds, hfind]
      rfl
    · cases ht.symm.trans herror

/-- A file that is refused is named. -/
theorem findIn_of_refuses {language : String} {row : Int} (h : p.Refuses disk file language row) :
    p.findIn disk s file = .error (.unparsable language row file) := by
  obtain ⟨l, code, path, hholds, herror⟩ := h
  have hfind : s.options.find l code file = .error (.unparsable language row path) := by
    unfold FindOptions.find
    rw [herror]
    rfl
  rw [findIn_eq hholds, hfind]
  rfl

/-! ### The findings of all files -/

/-- Every file that is looked at can be read. -/
theorem read_of_mem_sources (hdisk : disk.WellFormed) (hfile : file ∈ p.sources disk s) :
    ∃ code, p.folder.read disk file = .ok code := by
  obtain ⟨hwanted, -⟩ := (FileFilter.mem_discover (Folder.wellFormed_entries hdisk)).mp hfile
  obtain ⟨⟨path, code⟩, hmem, rfl⟩ := List.mem_map.mp (List.mem_filter.mp hwanted).1
  exact ⟨code, Folder.read_of_mem_entries hdisk hmem⟩

/-- The files that are looked at come in a strict order. -/
theorem pairwise_sources (hdisk : disk.WellFormed) : (p.sources disk s).Pairwise (· < ·) := by
  have hentries : (p.folder.entries disk).WellFormed := Folder.wellFormed_entries hdisk
  unfold sources
  rw [FileFilter.discover_eq hentries]
  exact FileFilter.pairwise_lt_mergeSort (((FileTree.nodup_files hentries).filter _).filter _)

/-- **The first file that fails decides**, whatever it fails with. -/
theorem find_of_failing {earlier later : List String} {e : Failure}
    (hsources : p.sources disk s = earlier ++ file :: later)
    (hearlier : ∀ other ∈ earlier, ∃ fs, p.findIn disk s other = .ok fs)
    (hfile : p.findIn disk s file = .error e) : p.find disk s = .error e := by
  unfold find
  rw [hsources, mapM_of_first_error hearlier hfile]
  rfl

/-- **What is found**, in a strict order, are the symbols that are looked for in any of the files. -/
theorem returns_find (hdisk : disk.WellFormed) : Returns (p.find disk s) fun fs =>
    (fs.map Finding.symbol).Pairwise (Prod.Lex (· < ·) (· < ·)) ∧
    ∀ symbol, symbol ∈ fs.map Finding.symbol ↔
      symbol.1 ∈ p.sources disk s ∧ p.Sought disk s symbol.1 symbol.2 := by
  have hfiles : Returns ((p.sources disk s).mapM (p.findIn disk s)) fun found =>
      found.Pairwise (fun fs fs' => List.Disjoint (fs.map Finding.symbol) (fs'.map Finding.symbol)) ∧
      ∀ fs ∈ found, ∃ file ∈ p.sources disk s, p.FoundIn disk s file fs := by
    refine Returns.mapM_pairwise (fun file _ => foundIn p disk s file) (pairwise_sources hdisk) ?_
    intro file file' fs fs' hlt hfs hfs' symbol hsymbol hsymbol'
    have hsame : file = file' := ((hfs.mem_iff symbol).mp hsymbol).1.symm.trans ((hfs'.mem_iff symbol).mp hsymbol').1
    exact String.lt_irrefl file' (hsame ▸ hlt)
  -- the list is distinct because each file is, and because no two files share a symbol
  have hboth : Returns ((p.sources disk s).mapM (p.findIn disk s)) _ :=
    fun found h => And.intro (hfiles found h) (Returns.mapM_mem _ _ found h)
  refine hboth.bind fun found ⟨⟨hapart, hfrom⟩, hall⟩ => .pure ?_
  have hnodup : (found.flatten.map Finding.symbol).Nodup := by
    rw [List.map_flatten, List.nodup_flatten, List.pairwise_map]
    refine ⟨fun symbols hsymbols => ?_, hapart⟩
    obtain ⟨fs, hfs, rfl⟩ := List.mem_map.mp hsymbols
    obtain ⟨file, -, hfound⟩ := hfrom fs hfs
    exact hfound.nodup
  refine ⟨Finding.pairwise_sort hnodup, fun symbol => ?_⟩
  rw [((Finding.sort_perm found.flatten).map Finding.symbol).mem_iff, List.map_flatten, List.mem_flatten]
  constructor
  -- out of the list: the symbol's file is the one that was searched for it
  · rintro ⟨symbols, hsymbols, hmem⟩
    obtain ⟨fs, hfs, rfl⟩ := List.mem_map.mp hsymbols
    obtain ⟨file, hfile, hfound⟩ := hfrom fs hfs
    obtain ⟨rfl, hsought⟩ := (hfound.mem_iff symbol).mp hmem
    exact ⟨hfile, hsought⟩
  -- into the list: the file was searched, whatever else its search gave
  · rintro ⟨hfile, hsought⟩
    obtain ⟨fs, hfs, hfound⟩ := hall symbol.1 hfile
    refine ⟨_, List.mem_map_of_mem hfs, ?_⟩
    exact ((foundIn p disk s symbol.1 fs hfound).mem_iff symbol).mpr ⟨rfl, hsought⟩

/-- A list with an element that does not have a property has a first one. -/
theorem exists_first {α : Type} {P : α → Prop} {xs : List α} (h : ¬ ∀ x ∈ xs, P x) :
    ∃ earlier x later, xs = earlier ++ x :: later ∧ (∀ y ∈ earlier, P y) ∧ ¬ P x := by
  classical
  cases hfind : xs.find? fun x => decide (¬ P x) with
  | none => exact absurd (fun x hx => by simpa using List.find?_eq_none.mp hfind x hx) h
  | some x =>
    obtain ⟨hx, earlier, later, hxs, hearlier⟩ := List.find?_eq_some_iff_append.mp hfind
    exact ⟨earlier, x, later, hxs, fun y hy => by simpa using hearlier y hy, by simpa using hx⟩

/-- **What is found in a repository.**  Let the language of each file that is looked at list any declarations in it,
    unless the file breaks its grammar.  If all the files can be parsed, the findings are strictly sorted by file and
    identifier, and there is one for a file and an identifier exactly if the file is looked at and a declaration of
    the identifier in it is exported, and neither a test nor documented unless this was asked for, and one of the
    expressions matches the identifier if there are any.  Otherwise the failure names the first file, in the order of
    their paths, that cannot be parsed. -/
theorem find_reports_exactly (p : Project) {disk : FileTree} (s : Search) (hdisk : disk.WellFormed)
    (hanswers : ∀ file ∈ p.sources disk s, p.Answers disk file) :
    (p.sources disk s).Pairwise (· < ·) ∧
    ((∀ file ∈ p.sources disk s, p.Parses disk file) → ∃ fs, p.find disk s = .ok fs ∧
      (fs.map Finding.symbol).Pairwise (Prod.Lex (· < ·) (· < ·)) ∧
      ∀ file identifier, (file, identifier) ∈ fs.map Finding.symbol ↔
        file ∈ p.sources disk s ∧ p.Sought disk s file identifier) ∧
    ((¬ ∀ file ∈ p.sources disk s, p.Parses disk file) → ∃ earlier file later language row,
      p.sources disk s = earlier ++ file :: later ∧
      (∀ other ∈ earlier, p.Parses disk other) ∧ ¬ p.Parses disk file ∧
      p.Refuses disk file language row ∧ p.find disk s = .error (.unparsable language row file)) := by
  have hread : ∀ file ∈ p.sources disk s, ∃ code, p.folder.read disk file = .ok code :=
    fun file => read_of_mem_sources hdisk
  refine ⟨pairwise_sources hdisk, fun hparses => ?_, fun hnot => ?_⟩
  -- every file parses, so each search gives its list and the whole is what was found, sorted
  · obtain ⟨found, hfound⟩ := exists_mapM fun file hfile =>
      exists_findIn (hread file hfile) (hanswers file hfile) (hparses file hfile)
    have hfind : p.find disk s = .ok (Finding.sort found.flatten) := by
      unfold find
      rw [hfound]
      rfl
    obtain ⟨hsorted, hmem⟩ := returns_find hdisk _ hfind
    exact ⟨_, hfind, hsorted, fun file identifier => hmem (file, identifier)⟩
  -- the first file that does not parse ends the search, and those before it were searched without harm
  · obtain ⟨earlier, file, later, hsources, hearlier, hfile⟩ := exists_first hnot
    have hof : ∀ other ∈ earlier, other ∈ p.sources disk s :=
      fun other hother => hsources ▸ List.mem_append_left _ hother
    have hmem : file ∈ p.sources disk s := by
      rw [hsources]
      exact List.mem_append_right _ List.mem_cons_self
    obtain ⟨language, row, hrefuses⟩ := (hanswers file hmem).refuses hfile
    refine ⟨earlier, file, later, language, row, hsources, hearlier, hfile, hrefuses, ?_⟩
    refine find_of_failing hsources (fun other hother => ?_) (findIn_of_refuses hrefuses)
    exact exists_findIn (hread other (hof other hother)) (hanswers other (hof other hother)) (hearlier other hother)

/-- A function that is declared with documentation and then without it is found; beside a file that breaks off, that
    file is named. -/
theorem find_reports_exactly_of_two_files :
    let code := encode "package a\n\n// F does.\nfunc F() {}\n\nfunc F() {}\n"
    let disk (other : Bytes) : FileTree := [.file "a.go" code, .file "b.py" other]
    let whole := disk (encode "def f():\n    pass\n")
    let broken := disk (encode "def f(\n")
    let p : Project := { folder := {} }
    (whole.WellFormed ∧ (∀ file ∈ p.sources whole {}, p.Answers whole file ∧ p.Parses whole file) ∧
      ∃ fs, p.find whole {} = .ok fs ∧ ("a.go", "func:F") ∈ fs.map Finding.symbol) ∧
    broken.WellFormed ∧ (∀ file ∈ p.sources broken {}, p.Answers broken file) ∧
      ∃ language row, p.find broken {} = .error (.unparsable language row "b.py") := by
  intro code disk whole broken p
  have hgo : Path.IsName "a.go" := by decide +kernel
  have hpy : Path.IsName "b.py" := by decide +kernel
  have hwell (other : Bytes) : (disk other).WellFormed := ⟨hgo, by simp [Entry.name], hpy, by simp, trivial⟩
  have hsources (other : Bytes) : p.sources (disk other) {} = ["a.go", "b.py"] := by
    have hextensions : p.languages.extensions = [".go", ".py"] := List.mergeSort_of_pairwise (by decide)
    have hwanted : ({ extensions := [".go", ".py"], excludes := defaultExclude } : FileFilter).wanted
        (p.folder.entries (disk other)) = ["a.go", "b.py"] := by
      show List.filter _ ["a.go", "b.py"] = _
      decide +kernel
    unfold sources
    rw [FileFilter.discover_default (Folder.wellFormed_entries (hwell other)) rfl, hextensions,
      FileFilter.filtered, hwanted]
    exact List.mergeSort_of_pairwise (by decide)
  have hfirst (other : Bytes) : ∃ ds, p.Declares (disk other) "a.go" ds ∧
      ∃ d ∈ ds, d.identifier = "func:F" ∧ FindOptions.wants {} d = true := by
    obtain ⟨t, ht, hany⟩ : ∃ t, Language.go.parse code = .ok t ∧ (Language.go.declarations t).toOption.any
        (fun ds => ds.any fun d => d.identifier = "func:F" ∧ FindOptions.wants {} d = true) = true :=
      exists_of_any (by decide +kernel)
    obtain ⟨ds, hds, hany⟩ := exists_of_any hany
    obtain ⟨d, hd, hcounts⟩ := List.any_eq_true.mp hany
    exact ⟨ds, ⟨.go, code, t, ⟨rfl, rfl⟩, ht, hds⟩, d, hd, of_decide_eq_true hcounts⟩
  have hsecond : ∃ ds, p.Declares whole "b.py" ds := by
    obtain ⟨t, ht, hany⟩ : ∃ t, Language.python.parse (encode "def f():\n    pass\n") = .ok t ∧
        (Language.python.declarations t).toOption.any (fun _ => true) = true :=
      exists_of_any (by decide +kernel)
    obtain ⟨ds, hds, -⟩ := exists_of_any hany
    exact ⟨ds, .python, _, t, ⟨rfl, rfl⟩, ht, hds⟩
  have hrefuses : ∃ language row, p.Refuses broken "b.py" language row := by
    have hfails : (Python.parse (encode "def f(\n")).isOk = false := by decide +kernel
    cases hparse : Python.parse (encode "def f(\n") with
    | ok root =>
      rw [hparse] at hfails
      cases hfails
    | error row =>
      refine ⟨"python", row, .python, _, "", ⟨rfl, rfl⟩, ?_⟩
      rw [Language.python_parse, Python.parseTree, hparse]
  obtain ⟨ds, hds, d, hd, hname, hwants⟩ := hfirst (encode "def f():\n    pass\n")
  obtain ⟨ds', hds'⟩ := hsecond
  obtain ⟨ds'', hds'', -⟩ := hfirst (encode "def f(\n")
  obtain ⟨language, row, hrefuses⟩ := hrefuses
  have hanswers : ∀ file ∈ p.sources whole {}, p.Answers whole file ∧ p.Parses whole file := by
    rw [hsources, List.forall_mem_cons, List.forall_mem_singleton]
    exact ⟨⟨hds.answers, hds.parses⟩, hds'.answers, hds'.parses⟩
  have hanswers' : ∀ file ∈ p.sources broken {}, p.Answers broken file := by
    rw [hsources, List.forall_mem_cons, List.forall_mem_singleton]
    exact ⟨hds''.answers, hrefuses.answers⟩
  refine ⟨⟨hwell _, hanswers, ?_⟩, hwell _, hanswers', ?_⟩
  · obtain ⟨-, hfound, -⟩ := find_reports_exactly p {} (hwell _) fun file hfile => (hanswers file hfile).1
    obtain ⟨fs, hfind, -, hmem⟩ := hfound fun file hfile => (hanswers file hfile).2
    refine ⟨fs, hfind, (hmem "a.go" "func:F").mpr ⟨?_, ⟨ds, hds, d, hd, hname, ?_⟩, .inl rfl⟩⟩
    · rw [hsources]
      exact List.mem_cons_self
    · exact FindOptions.wants_iff.mp hwants
  · have hnot : ¬ ∀ file ∈ p.sources broken {}, p.Parses broken file := by
      rw [hsources, List.forall_mem_cons, List.forall_mem_singleton]
      exact fun hall => hrefuses.not_parses hall.2
    obtain ⟨-, -, hnamed⟩ := find_reports_exactly p {} (hwell _) hanswers'
    obtain ⟨earlier, file, later, language', row', hsplit, -, hfile, -, hfind⟩ := hnamed hnot
    rw [hsources] at hsplit
    have hmem : file ∈ ["a.go", "b.py"] := by
      rw [hsplit]
      exact List.mem_append_right _ List.mem_cons_self
    rcases List.mem_pair.mp hmem with rfl | rfl
    · exact absurd hds''.parses hfile
    · exact ⟨language', row', hfind⟩

end Project

end Docsmith
