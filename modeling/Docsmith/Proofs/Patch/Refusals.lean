import Docsmith.Git.Message
import Docsmith.Proofs.Minify.Outputs
import Docsmith.Proofs.Patch.Log
import Docsmith.Proofs.Sorting

namespace Docsmith

/-!
# What a refused comment leaves alone

A comment that is refused leaves no trace in a patch but perhaps its file, as it was read.  What a patch
tells to be documented are thus the comments that it accepted, and so does the message of its commit.

* `Languages.Reads`: the languages read a source into a tree of this source without edits.
* `PatchFile.Untouched`: a file as it was read.
* `Patch.remark_refused`: what a refused comment does.
* `Patch.log`: the identifiers documented in a file, and `Patch.log_after`: those of the comments that were
  accepted.
* `Patch.mem_identifiers`, `Patch.identifiers_sorted`: what a patch tells by file.
* `Patch.logged_eq_accepted`: the symbols of a commit message are those of the comments that were accepted.
* `Patch.refusals_leave_no_trace`: all of this for any comments on a new patch.
-/

/-- Every language of a file reads a source into a tree of this source without edits. -/
def Languages.Reads (r : Languages) : Prop :=
  ∀ file l, r.forFile? file = some l → SourceTree.Reads l.parse

/-- The languages that are known from the start do. -/
theorem Languages.reads_default : Languages.default.Reads := by
  intro file l hl
  rcases Patch.forFile?_default hl with rfl | rfl
  · simp only [Language.go, Go.parseTree_reads]
  · simp only [Language.python, Python.parseTree_reads]

/-- A file as it was read: it is rendered as its source, and nothing is queued or logged. -/
structure PatchFile.Untouched (f : PatchFile) (code : Bytes) : Prop where
  rendering : f.tree.render = code
  edits : f.tree.edits.entries = []
  texts : f.texts = []
  identifiers : f.identifiers = []

namespace Patch

variable {p : Patch} {c : Remark} {f : PatchFile} {file : String} {disk : FileTree} {e : Failure}

/-! ### Refusals -/

/-- A file that is read is as it was on the disk. -/
theorem untouched_load (hlanguages : p.languages.Reads) :
    Returns (p.load disk file) fun f =>
      ∃ code, p.folder.read disk file = .ok code ∧ f.Untouched code := by
  unfold load
  split
  · exact .error _ _
  · rename_i l hl
    refine (Returns.self (p.folder.read disk file)).bind fun code hcode => ?_
    refine ((hlanguages file l hl code).mapError _).bind fun tree ⟨htree, hclean⟩ => ?_
    refine (Returns.of_any (l.declarations tree)).bind fun ds _ => .pure ⟨code, hcode, ?_⟩
    exact ⟨by rw [SourceTree.render_of_clean hclean, htree],
      by simpa [EditSet.dirty] using hclean, rfl, rfl⟩

/-- A file that is there is put in its place as it is. -/
theorem putFile_self (h : p.file? file = some f) : putFile file f p.files = p.files := by
  unfold file? at h
  generalize p.files = files at h ⊢
  induction files with
  | nil => cases h
  | cons x rest ih =>
    obtain ⟨k, old⟩ := x
    rw [putFile_cons]
    by_cases hk : k = file
    · subst hk
      have hold : old = f := by simpa using h
      rw [if_pos rfl, hold]
    · rw [if_neg hk, ih (by simpa [hk] using h)]

/-- A file that is not there is added at the end. -/
theorem putFile_new (h : p.file? file = none) : putFile file f p.files = p.files ++ [(file, f)] := by
  unfold file? at h
  generalize p.files = files at h ⊢
  induction files with
  | nil => rfl
  | cons x rest ih =>
    obtain ⟨k, old⟩ := x
    rw [putFile_cons]
    by_cases hk : k = file
    · simp [hk] at h
    · rw [if_neg hk, ih (by simpa [hk] using h), List.cons_append]

/-- What a refused comment does: nothing, or it brings its file into the patch as it was read, if the file
    is fine and only the symbol was refused. -/
structure Adds (p : Patch) (c : Remark) (e : Failure) (f : PatchFile) (code : Bytes) : Prop where
  symbol : e = .symbolNotFound c.file c.identifier ∨ e = .alreadyDocumented c.file c.identifier
  absent : p.file? c.file = none
  read : p.folder.read c.disk c.file = .ok code
  untouched : f.Untouched code
  result : (p.remark c).2 = { p with files := p.files ++ [(c.file, f)] }

/-- **A refused comment changes nothing**, or it adds its file as it was read. -/
theorem remark_refused (hlanguages : p.languages.Reads) (h : (p.remark c).1 = .error e) :
    (p.remark c).2 = p ∨ ∃ f code, p.Adds c e f code := by
  cases hopen : p.openFile c.disk c.file with
  | error e' =>
    have hremark : p.remark c = (.error e', p) := by simp [remark, comment, hopen]
    exact .inl (by rw [hremark])
  | ok f =>
    have hcomment : f.comment p.override c.file c.identifier c.text = .error e := by
      cases hcomment : f.comment p.override c.file c.identifier c.text with
      | error e' => simpa [remark, comment, hopen, hcomment] using h
      | ok f' => simp [remark, comment, hopen, hcomment] at h
    have hput : (p.remark c).2 = { p with files := putFile c.file f p.files } := by
      simp [remark, comment, hopen, hcomment]
    cases hfile : p.file? c.file with
    | some old =>
      have hold : old = f := by simpa [openFile, hfile] using hopen
      rw [hput, putFile_self (hold ▸ hfile)]
      exact .inl rfl
    | none =>
      have hload : p.load c.disk c.file = .ok f := by simpa [openFile, hfile] using hopen
      obtain ⟨code, hcode, huntouched⟩ := untouched_load hlanguages f hload
      refine .inr ⟨f, code, ?_, hfile, hcode, huntouched, by rw [hput, putFile_new hfile]⟩
      -- the file was read, so that the symbol was refused
      rcases remark_error h with hcause | hcause
      · rw [hload] at hcause
        cases hcause
      · exact hcause

/-! ### The log of a file -/

/-- The identifiers that were documented in a file, in order. -/
def log (p : Patch) (file : String) : List String := ((p.file? file).map (·.identifiers)).getD []

/-- The identifiers that comments are on in a file, in order. -/
def identifiersIn (file : String) (cs : List Remark) : List String :=
  (cs.filter (·.file == file)).map (·.identifier)

theorem identifiersIn_append (file : String) (cs ds : List Remark) :
    identifiersIn file (cs ++ ds) = identifiersIn file cs ++ identifiersIn file ds := by
  simp [identifiersIn]

/-- The log of a file after a file was put whose log goes on from that of its name. -/
theorem log_putFile {f' : PatchFile} {more : List String} (hopen : p.openFile disk file = .ok f)
    (hlog : f'.identifiers = f.identifiers ++ more) (other : String) :
    ({ p with files := putFile file f' p.files } : Patch).log other
      = if file = other then p.log other ++ more else p.log other := by
  have hbefore : f.identifiers = p.log file := by
    rw [identifiers_openFile hopen, log, file?, Option.map_map]
    rfl
  rw [log, file?_putFile]
  by_cases hfile : file = other
  · subst hfile
    simp [hlog, hbefore]
  · rw [if_neg hfile, if_neg hfile]
    rfl

/-- One comment goes on the log of its file, if it is accepted. -/
theorem log_remark (p : Patch) (c : Remark) (file : String) :
    (p.remark c).2.log file = p.log file ++ identifiersIn file (p.accepted [c]) := by
  -- the log grows with the accepted call alone; a refused one leaves it, opened file or not
  cases hopen : p.openFile c.disk c.file with
  | error e =>
    have hremark : p.remark c = (.error e, p) := by simp [remark, comment, hopen]
    rw [accepted_of_error (by rw [hremark]), hremark]
    exact (List.append_nil _).symm
  | ok f =>
    cases hcomment : f.comment p.override c.file c.identifier c.text with
    | error e =>
      have hremark : p.remark c = (.error e, { p with files := putFile c.file f p.files }) := by
        simp [remark, comment, hopen, hcomment]
      rw [accepted_of_error (by rw [hremark]), hremark, log_putFile hopen (List.append_nil _).symm]
      simp [identifiersIn, accepted]
    | ok f' =>
      have hremark : p.remark c = (.ok (), { p with files := putFile c.file f' p.files }) := by
        simp [remark, comment, hopen, hcomment]
      -- only a comment that was written adds its identifier
      have hlog : f'.identifiers = f.identifiers ++ [c.identifier] := by
        unfold PatchFile.comment at hcomment
        split at hcomment
        · cases hcomment
        · split at hcomment
          · cases hcomment
          · cases hcomment
            rfl
      rw [accepted_of_ok (by rw [hremark]), hremark, log_putFile hopen hlog]
      by_cases hfile : c.file = file <;> simp [identifiersIn, accepted, hfile]

/-- The first verdict is that of the first comment, the others are those of a patch after it. -/
theorem accepted_cons (p : Patch) (c : Remark) (rest : List Remark) :
    p.accepted (c :: rest) = p.accepted [c] ++ (p.remark c).2.accepted rest := by
  cases h : (p.remark c).1 with
  | ok => rw [accepted_of_ok h, accepted_of_ok h]; rfl
  | error e => rw [accepted_of_error h, accepted_of_error h]; rfl

/-- **The log of a file are the comments on it that were accepted**, in their order. -/
theorem log_after (p : Patch) (cs : List Remark) (file : String) :
    (p.after cs).log file = p.log file ++ identifiersIn file (p.accepted cs) := by
  induction cs generalizing p with
  | nil => exact (List.append_nil _).symm
  | cons c rest ih =>
    have hrest : (p.after (c :: rest)).log file
        = (p.remark c).2.log file ++ identifiersIn file ((p.remark c).2.accepted rest) := ih _
    rw [hrest, log_remark, accepted_cons p c rest, identifiersIn_append, List.append_assoc]

/-! ### What a patch tells -/

/-- Comments change nothing of a patch but its files. -/
theorem after_files (p : Patch) (cs : List Remark) : ∃ files, p.after cs = { p with files := files } := by
  induction cs generalizing p with
  | nil => exact ⟨p.files, rfl⟩
  | cons c rest ih =>
    obtain ⟨files, hfiles⟩ := remark_files p c
    obtain ⟨files', hfiles'⟩ := ih (p.remark c).2
    refine ⟨files', ?_⟩
    rw [hfiles] at hfiles'
    exact (congrArg (·.after rest) hfiles).trans hfiles'

theorem reachable_after {p : Patch} (hp : p.Reachable) (cs : List Remark) : (p.after cs).Reachable := by
  induction cs generalizing p with
  | nil => exact hp
  | cons c rest ih => exact ih (hp.comment c.disk c.file c.identifier c.text)

/-- A file of a patch is found by its name. -/
theorem file?_eq_some (hp : (p.files.map Prod.fst).Nodup) :
    p.file? file = some f ↔ (file, f) ∈ p.files :=
  find?_eq_some_iff hp

/-- The names of the files are told in order, each once. -/
theorem sorted_names (hp : (p.files.map Prod.fst).Nodup) :
    (p.sorted.map Prod.fst).Pairwise (· < ·) := by
  have hnodup : (p.sorted.map Prod.fst).Nodup :=
    (p.sorted_perm.map Prod.fst).nodup_iff.mpr hp
  have hsorted : (p.sorted.map Prod.fst).Pairwise (· ≤ ·) :=
    List.pairwise_map.mpr (pairwise_mergeSort_name Prod.fst p.files)
  refine (hsorted.and hnodup).imp fun {a b} ⟨hle, hne⟩ => ?_
  by_contra hlt
  exact hne (String.le_antisymm hle (String.not_lt.mp hlt))

/-- The files that a patch tells are in order, each once. -/
theorem identifiers_sorted (hp : (p.files.map Prod.fst).Nodup) :
    (p.identifiers.map Prod.fst).Pairwise (· < ·) := by
  refine List.Pairwise.sublist ?_ (sorted_names hp)
  have hsub : p.identifiers.Sublist (p.sorted.map fun x => (x.1, x.2.identifiers)) :=
    List.filter_sublist
  simpa [List.map_map, Function.comp_def] using hsub.map Prod.fst

/-- A patch tells the files with a log, and their logs. -/
theorem mem_identifiers (hp : (p.files.map Prod.fst).Nodup) {identifiers : List String} :
    (file, identifiers) ∈ p.identifiers ↔ identifiers ≠ [] ∧ identifiers = p.log file := by
  constructor
  · intro h
    obtain ⟨hmem, hsome⟩ := List.mem_filter.mp h
    obtain ⟨⟨name, f⟩, hf, heq⟩ := List.mem_map.mp hmem
    cases heq
    have hfile : p.file? file = some f := (file?_eq_some hp).mpr (p.sorted_perm.mem_iff.mp hf)
    exact ⟨by simpa using hsome, by simp [log, hfile]⟩
  · rintro ⟨hsome, heq⟩
    cases hfile : p.file? file with
    | none => exact absurd (by simpa [log, hfile] using heq) hsome
    | some f =>
      have hmem : (file, f) ∈ p.sorted :=
        p.sorted_perm.mem_iff.mpr ((file?_eq_some hp).mp hfile)
      refine List.mem_filter.mpr ⟨List.mem_map.mpr ⟨(file, f), hmem, ?_⟩, by simpa using hsome⟩
      simp [heq, log, hfile]

/-! ### The message of a commit -/

/-- What the files have logged under one name is the log of the file of this name. -/
theorem filter_entries (files : List (String × PatchFile)) (file : String) :
    (files.flatMap entries).filter (·.1 == file) = (files.filter (·.1 == file)).flatMap entries := by
  induction files with
  | nil => rfl
  | cons x rest ih =>
    obtain ⟨k, f⟩ := x
    rw [List.flatMap_cons, List.filter_append, ih]
    by_cases hk : k = file
    · subst hk
      have hall : (entries (k, f)).filter (·.1 == k) = entries (k, f) := by
        simp [entries, List.filter_map, Function.comp_def]
      rw [List.filter_cons_of_pos (by simp), List.flatMap_cons, hall]
    · have hnone : (entries (k, f)).filter (·.1 == file) = [] := by
        simp [entries, List.filter_map, Function.comp_def, hk]
      rw [List.filter_cons_of_neg (by simpa using hk), hnone, List.nil_append]

/-- Of the files there is at most one of a name. -/
theorem filter_files (hp : (p.files.map Prod.fst).Nodup) (file : String) :
    p.files.filter (·.1 == file) = ((p.file? file).map (file, ·)).toList := by
  unfold file?
  generalize p.files = files at hp ⊢
  induction files with
  | nil => rfl
  | cons x rest ih =>
    obtain ⟨k, f⟩ := x
    obtain ⟨hnot, hrest⟩ := List.nodup_cons.mp hp
    by_cases hk : k = file
    · subst hk
      have hnone : rest.filter (·.1 == k) = [] :=
        List.filter_eq_nil_iff.mpr fun y hy hname =>
          hnot (List.mem_map.mpr ⟨y, hy, by simpa using hname⟩)
      simp [hnone]
    · simpa [hk] using ih hrest

/-- The symbols of one file that a patch tells are those in its log, in its order. -/
theorem filter_logged (hp : (p.files.map Prod.fst).Nodup) (file : String) :
    p.logged.filter (·.1 == file) = (p.log file).map (file, ·) := by
  have hsorted : p.sorted.filter (·.1 == file) = p.files.filter (·.1 == file) :=
    filter_mergeSort_name Prod.fst p.files file
  rw [logged_eq, filter_entries, hsorted, filter_files hp, log]
  cases p.file? file <;> simp [entries]

/-- The symbols are told in the order of their files. -/
theorem logged_sorted (hp : (p.files.map Prod.fst).Nodup) :
    p.logged.Pairwise fun x y => x.1 ≤ y.1 := by
  rw [logged_eq, List.pairwise_flatMap]
  constructor
  · intro x _
    exact List.pairwise_map.mpr (List.pairwise_of_forall fun _ _ => String.le_refl _)
  · refine (List.pairwise_map.mp (sorted_names hp)).imp fun hlt x hx y hy => ?_
    obtain ⟨i, -, rfl⟩ := List.mem_map.mp hx
    obtain ⟨j, -, rfl⟩ := List.mem_map.mp hy
    exact String.not_lt.mp (String.lt_asymm hlt)

/-- The line of a commit message about a symbol of a file. -/
def line (symbol : String × String) : String := "  - " ++ symbol.1 ++ "@" ++ symbol.2

/-- The lines of a commit message are about the symbols that the patch tells. -/
theorem symbolLines_identifiers (p : Patch) :
    CommitMessage.symbolLines p.identifiers = p.logged.map line := by
  simp [CommitMessage.symbolLines, logged, List.map_flatMap, Function.comp_def, line]

/-- **The symbols of a new patch after some comments** are those of the comments that were accepted, by
    file and in their order. -/
theorem logged_eq_accepted (folder : Folder) (languages : Languages) (override : Bool)
    (calls : List Remark) :
    let fresh : Patch := { folder := folder, languages := languages, override := override }
    (fresh.after calls).logged
      = ((fresh.accepted calls).mergeSort fun c d => c.file ≤ d.file).map Remark.symbol := by
  intro fresh
  have hnodup := (reachable_after (.fresh folder languages override) calls).nodup
  rw [List.map_mergeSort (r := fun c d : Remark => decide (c.file ≤ d.file))
    (s := fun x y : String × String => decide (x.1 ≤ y.1)) (f := Remark.symbol) fun _ _ _ _ => rfl]
  refine eq_mergeSort_name Prod.fst (logged_sorted hnodup) fun file => ?_
  rw [filter_logged hnodup, log_after]
  have hfresh : fresh.log file = [] := rfl
  rw [hfresh, List.nil_append, identifiersIn, List.filter_map, List.map_map]
  refine List.map_congr_left fun c hc => ?_
  have hfile : c.file = file := by simpa using (List.mem_filter.mp hc).2
  rw [← hfile]
  rfl

/-- **Refusals leave no trace.**  Of any comments on a new patch, one that is refused changes nothing, or
    it brings its file into the patch as it was read, which nothing waits for and nothing is logged of; and
    the patch tells, in the order of their names, the files with comments that were accepted, each with
    the identifiers of these comments in their order.  The message about the patch has the same lines, and
    is empty if there are none. -/
theorem refusals_leave_no_trace (folder : Folder) {languages : Languages}
    (hlanguages : languages.Reads) (override : Bool) (calls : List Remark) :
    let fresh : Patch := { folder := folder, languages := languages, override := override }
    let p := fresh.after calls
    (∀ c e, (p.remark c).1 = .error e → (p.remark c).2 = p ∨ ∃ f code, p.Adds c e f code) ∧
    (p.identifiers.map Prod.fst).Pairwise (· < ·) ∧
    (∀ file identifiers, (file, identifiers) ∈ p.identifiers ↔
      identifiers ≠ [] ∧ identifiers = identifiersIn file (fresh.accepted calls)) ∧
    ∀ footer, (CommitMessage.forSymbols p.identifiers footer).description
      = if fresh.accepted calls = [] then []
        else "Updated docs:" :: ((fresh.accepted calls).mergeSort fun c d => c.file ≤ d.file).map
          (line ∘ Remark.symbol) := by
  intro fresh p
  have hreachable : p.Reachable := reachable_after (.fresh folder languages override) calls
  have hsame : p.languages = languages := by
    obtain ⟨files, hfiles⟩ := after_files fresh calls
    simp [p, hfiles, fresh]
  have hlog (file : String) : p.log file = identifiersIn file (fresh.accepted calls) :=
    log_after fresh calls file
  refine ⟨fun c e => remark_refused (hsame ▸ hlanguages), identifiers_sorted hreachable.nodup, ?_, ?_⟩
  · intro file identifiers
    rw [mem_identifiers hreachable.nodup, hlog]
  · intro footer
    have hlines : CommitMessage.symbolLines p.identifiers
        = ((fresh.accepted calls).mergeSort fun c d => c.file ≤ d.file).map
          (line ∘ Remark.symbol) := by
      rw [symbolLines_identifiers, logged_eq_accepted folder languages override calls, List.map_map]
    have hempty : ((fresh.accepted calls).mergeSort fun c d => c.file ≤ d.file).map
        (line ∘ Remark.symbol) = [] ↔ fresh.accepted calls = [] := by
      rw [List.map_eq_nil_iff, ← List.length_eq_zero_iff, List.length_mergeSort,
        List.length_eq_zero_iff]
    simp only [CommitMessage.forSymbols, hlines, List.isEmpty_iff, hempty]

/-- Comments on the functions of two files, some of them on functions that are not there or in a file
    that is no source. -/
theorem refusals_leave_no_trace_of_two_files :
    let disk : FileTree := [.file "b.py" (Text.encode "def f():\n    pass\n"),
      .file "a.go" (Text.encode "package a\n\nfunc F() {}\n"), .file "c.go" (Text.encode "func")]
    let calls : List Remark := [⟨disk, "b.py", "func:f", "Give one."⟩,
      ⟨disk, "b.py", "func:f", "Give more."⟩, ⟨disk, "c.go", "func:F", "F."⟩,
      ⟨disk, "a.go", "func:G", "G."⟩, ⟨disk, "a.go", "func:F", "F does."⟩]
    let fresh : Patch := { folder := {} }
    (fresh.accepted calls).length = 2 ∧ (fresh.after calls).files.length = 2 ∧
      Languages.default.Reads ∧ ((fresh.after calls).identifiers.map Prod.fst).Pairwise (· < ·) :=
  ⟨by decide +kernel, by decide +kernel, Languages.reads_default,
    (refusals_leave_no_trace {} Languages.reads_default false _).2.1⟩

end Patch

end Docsmith
