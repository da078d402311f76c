import Docsmith.Patch.Basic
import Docsmith.Proofs.Files.Store
import Docsmith.Proofs.Returns
import Mathlib.Data.List.Nodup

namespace Docsmith

/-!
# Applying a patch

Each file of a patch is rendered and written on its own: what goes wrong with one of them is reported
under its name, and the others are written all the same.

* `Patch.Reachable`: the patches that comments lead to, and `Patch.Reachable.nodup`: no two of their
  files have one name.
* `Patch.applyFiles_append`: files are written one after another.
* `Patch.content_applyFiles`: places that no file leads to stay as they are.
* `Patch.mem_dryRun`, `Patch.dryRun_of_rendered`: what the files render to, and when all of them do.
* `Patch.apply_isolates`: what comes of each file, whatever the store refuses.
-/

namespace Patch

/-! ### Reachable patches -/

/-- A patch that is new, or that a comment led to. -/
inductive Reachable : Patch → Prop where
  | fresh (folder : Folder) (languages : Languages) (override : Bool) :
      Reachable { folder := folder, languages := languages, override := override }
  | comment {p : Patch} (h : Reachable p) (disk : FileTree) (file identifier text : String) :
      Reachable (p.comment disk file identifier text).2

/-- The names of the files after one of them was put: they are the same, or there is a new one. -/
theorem putFile_names (file : String) (f : PatchFile) (files : List (String × PatchFile)) :
    (putFile file f files).map Prod.fst
      = if file ∈ files.map Prod.fst then files.map Prod.fst else files.map Prod.fst ++ [file] := by
  -- where the name is new it comes last, which is the order the entry keeps in every later call
  induction files with
  | nil => rfl
  | cons entry rest ih =>
    obtain ⟨k, old⟩ := entry
    unfold putFile
    by_cases hk : k = file
    · subst hk
      simp
    · have hk' : ¬(k == file) = true := by simpa using hk
      rw [if_neg hk', List.map_cons, List.map_cons, ih]
      by_cases hmem : file ∈ rest.map Prod.fst
      · rw [if_pos hmem, if_pos (List.mem_cons_of_mem _ hmem)]
      · have hnot : file ∉ k :: rest.map Prod.fst := by
          rw [List.mem_cons]
          rintro (heq | hin)
          · exact hk heq.symm
          · exact hmem hin
        rw [if_neg hmem, if_neg hnot, List.cons_append]

/-- A file that is put keeps the names apart. -/
theorem putFile_nodup {file : String} {f : PatchFile} {files : List (String × PatchFile)}
    (h : (files.map Prod.fst).Nodup) : ((putFile file f files).map Prod.fst).Nodup := by
  rw [putFile_names]
  split
  · exact h
  · rename_i hnot
    rw [List.nodup_append]
    refine ⟨h, List.nodup_singleton file, ?_⟩
    intro a ha b hb heq
    rw [List.mem_singleton.mp hb] at heq
    exact hnot (heq ▸ ha)

/-- No two files of a reachable patch have one name. -/
theorem Reachable.nodup {p : Patch} (h : p.Reachable) : (p.files.map Prod.fst).Nodup := by
  induction h with
  | fresh => exact List.nodup_nil
  | comment h disk file identifier text ih =>
    unfold Patch.comment
    split
    · exact ih
    · split
      · exact putFile_nodup ih
      · exact putFile_nodup ih

/-- The files in order are the files. -/
theorem sorted_perm (p : Patch) : p.sorted.Perm p.files := List.mergeSort_perm _ _

/-- Files whose names are in order stay as they are when they are sorted. -/
theorem sorted_of_ordered {p : Patch}
    (h : (p.files.map Prod.fst).Pairwise fun a b => decide (a ≤ b) = true) : p.sorted = p.files :=
  List.mergeSort_of_pairwise (List.pairwise_map.mp h)

/-! ### One file after another -/

variable {δ π : Type} {store : Store δ} {place : String → π} {content : δ → π → Option Bytes}

/-- Files are written one after another, and none stops those that follow. -/
theorem applyFiles_append (store : Store δ) (files others : List (String × PatchFile)) (disk : δ) :
    applyFiles store (files ++ others) disk =
      let first := applyFiles store files disk
      let second := applyFiles store others first.2
      (first.1 ++ second.1, second.2) := by
  induction files generalizing disk with
  | nil => rfl
  | cons entry rest ih =>
    obtain ⟨file, f⟩ := entry
    simp only [List.cons_append, applyFiles, ih, List.append_assoc]

/-- The failures are failures of the files, in their order. -/
theorem failures_sublist (store : Store δ) (files : List (String × PatchFile)) (disk : δ) :
    ((applyFiles store files disk).1.map Prod.fst).Sublist (files.map Prod.fst) := by
  induction files generalizing disk with
  | nil => exact .slnil
  | cons entry rest ih =>
    obtain ⟨file, f⟩ := entry
    simp only [applyFiles]
    cases (applyFile store disk file f).1 with
    | ok _ => exact (ih _).cons _
    | error e => exact (ih _).cons_cons _

/-- Whatever comes of a file, the other places stay as they are. -/
theorem content_applyFile (hstore : store.Lawful place content) {disk : δ} {file : String}
    {f : PatchFile} {q : π} (hq : q ≠ place file) :
    content (applyFile store disk file f).2 q = content disk q := by
  unfold applyFile
  split
  · exact hstore.others hq
  · rfl

/-- Places that no file leads to stay as they are. -/
theorem content_applyFiles (hstore : store.Lawful place content)
    {files : List (String × PatchFile)} {q : π} (hq : ∀ x ∈ files, q ≠ place x.1) (disk : δ) :
    content (applyFiles store files disk).2 q = content disk q := by
  induction files generalizing disk with
  | nil => rfl
  | cons entry rest ih =>
    obtain ⟨file, f⟩ := entry
    simp only [applyFiles]
    rw [ih (fun x hx => hq x (List.mem_cons_of_mem _ hx))]
    exact content_applyFile hstore (hq (file, f) List.mem_cons_self)

/-! ### Every file on its own -/

/-- A file fails with an error when its turn comes: it is no source any more, or the store refuses
    it. -/
def Fails (p : Patch) (store : Store δ) (disk : δ) (file : String) (e : Failure) : Prop :=
  ∃ before f after, p.sorted = before ++ (file, f) :: after ∧
    (f.render file = .error e ∨ ∃ code, f.render file = .ok code ∧
      (store.write (applyFiles store before disk).2 file code).1 = .error e)

/-- No other file of the patch leads to the place of a file. -/
def Alone (p : Patch) (place : String → π) (file : String) : Prop :=
  ∀ other ∈ p.files.map Prod.fst, place other = place file → other = file

/-- What comes of a file: an error of its own, or it is written as it is rendered. -/
theorem applyFile_eq_error {disk : δ} {file : String} {f : PatchFile} {e : Failure} :
    (applyFile store disk file f).1 = .error e ↔
      f.render file = .error e ∨ ∃ code, f.render file = .ok code ∧
        (store.write disk file code).1 = .error e := by
  unfold applyFile
  cases f.render file with
  | ok code => simp
  | error e' => simp

/-- The failures of the files around one of them. -/
theorem failures_split (store : Store δ) (before after : List (String × PatchFile)) (file : String)
    (f : PatchFile) (disk : δ) :
    let turn := (applyFiles store before disk).2
    (applyFiles store (before ++ (file, f) :: after) disk).1
      = (applyFiles store before disk).1 ++ failureOf file (applyFile store turn file f).1
        ++ (applyFiles store after (applyFile store turn file f).2).1 := by
  simp only [applyFiles_append, applyFiles, List.append_assoc]

/-- A failure is the failure of some file when its turn comes. -/
theorem mem_failures {files : List (String × PatchFile)} {disk : δ} {file : String} {e : Failure}
    (h : (file, e) ∈ (applyFiles store files disk).1) :
    ∃ before f after, files = before ++ (file, f) :: after ∧
      (applyFile store (applyFiles store before disk).2 file f).1 = .error e := by
  -- the first file that failed, and the ones written before it; induction moves the front along
  induction files generalizing disk with
  | nil => cases h
  | cons entry rest ih =>
    obtain ⟨name, g⟩ := entry
    simp only [applyFiles, List.mem_append] at h
    rcases h with hfirst | hrest
    · cases hresult : (applyFile store disk name g).1 with
      | ok _ => rw [hresult] at hfirst; cases hfirst
      | error e' =>
        rw [hresult, failureOf, List.mem_singleton] at hfirst
        cases hfirst
        exact ⟨[], g, rest, rfl, hresult⟩
    · obtain ⟨before, f, after, rfl, hfails⟩ := ih hrest
      exact ⟨(name, g) :: before, f, after, rfl, hfails⟩

/-- The failures of a patch are those of its files. -/
theorem mem_failures_iff {p : Patch} {disk : δ} {file : String} {e : Failure} :
    (file, e) ∈ (p.applyTo store disk).1 ↔ p.Fails store disk file e := by
  constructor
  · intro h
    obtain ⟨before, f, after, hsplit, hfails⟩ := mem_failures h
    exact ⟨before, f, after, hsplit, applyFile_eq_error.mp hfails⟩
  · rintro ⟨before, f, after, hsplit, hfails⟩
    rw [applyTo, hsplit, failures_split, applyFile_eq_error.mpr hfails]
    simp [failureOf]

/-- What is rendered for a file is what a dry run has for it. -/
theorem mem_dryRun {p : Patch} {file : String} {f : PatchFile} {code : Bytes}
    {rendered : List (String × Bytes)} (hmem : (file, f) ∈ p.files)
    (hcode : f.render file = .ok code) (hrun : p.dryRun = .ok rendered) :
    (file, code) ∈ rendered := by
  have hsorted : (file, f) ∈ p.sorted := p.sorted_perm.mem_iff.mpr hmem
  unfold dryRun at hrun
  generalize p.sorted = files at hsorted hrun
  -- rendering stops at the first file that fails, so the file looked for is rendered before that
  induction files generalizing rendered with
  | nil => cases hsorted
  | cons entry rest ih =>
    rw [List.mapM_cons] at hrun
    cases hfirst : entry.2.render entry.1 with
    | error e => simp only [hfirst, bind, Except.bind] at hrun; cases hrun
    | ok first =>
      simp only [hfirst, bind, Except.bind, pure, Except.pure] at hrun ih
      split at hrun
      · cases hrun
      · rename_i others hrest
        cases hrun
        rcases List.mem_cons.mp hsorted with heq | hin
        · subst heq
          rw [hcode] at hfirst
          cases hfirst
          exact List.mem_cons_self
        · exact List.mem_cons_of_mem _ (ih hin hrest)

/-- A dry run has the renderings of files whose names are in order. -/
theorem dryRun_of_rendered {p : Patch} {rendered : List (String × Bytes)}
    (hrendered : p.files.map (fun x => (x.1, (x.2.render x.1).toOption))
      = rendered.map fun y => (y.1, some y.2))
    (hordered : (rendered.map Prod.fst).Pairwise fun a b => decide (a ≤ b) = true) :
    p.dryRun = .ok rendered := by
  have hnames : p.files.map Prod.fst = rendered.map Prod.fst := by
    simpa [List.map_map, Function.comp_def] using congrArg (List.map Prod.fst) hrendered
  rw [dryRun, sorted_of_ordered (hnames ▸ hordered)]
  clear hnames hordered
  generalize p.files = files at hrendered
  -- the induction is over the files in the order they are written; sorting is done once, before it
  induction files generalizing rendered with
  | nil =>
    rw [List.map_nil, eq_comm, List.map_eq_nil_iff] at hrendered
    rw [hrendered]
    rfl
  | cons entry rest ih =>
    cases rendered with
    | nil => cases hrendered
    | cons y others =>
      obtain ⟨hfirst, hrest⟩ := List.cons.inj hrendered
      obtain ⟨file, f⟩ := entry
      obtain ⟨rfl, hcode⟩ := Prod.mk.inj hfirst
      rw [List.mapM_cons, ih hrest]
      dsimp only
      rw [eq_ok_of_toOption hcode]
      rfl

/-- **Every file of a patch stands for itself.**  A file that alone leads to its place ends there as
    it is rendered unless it fails, and is left as it was when its rendering is no source.  Exactly
    the files that fail are reported, each with its own error, and no other place is touched. -/
theorem apply_isolates (hstore : store.Lawful place content) {p : Patch} (hp : p.Reachable)
    (disk : δ) :
    let out := p.applyTo store disk
    (∀ file f, (file, f) ∈ p.files → p.Alone place file →
      (∀ e, f.render file = .error e → content out.2 (place file) = content disk (place file)) ∧
      ∀ code, f.render file = .ok code → (∀ e, ¬p.Fails store disk file e) →
        content out.2 (place file) = some code ∧
          ∀ rendered, p.dryRun = .ok rendered → (file, code) ∈ rendered) ∧
    (∀ file e, (file, e) ∈ out.1 ↔ p.Fails store disk file e) ∧
    (out.1.map Prod.fst).Nodup ∧
    ∀ q, (∀ file ∈ p.files.map Prod.fst, place file ≠ q) → content out.2 q = content disk q := by
  intro out
  have hnames : (p.sorted.map Prod.fst).Nodup :=
    (p.sorted_perm.map Prod.fst).nodup_iff.mpr hp.nodup
  refine ⟨?_, fun file e => mem_failures_iff, ?_, ?_⟩
  · intro file f hmem halone
    -- the file and the others it may not touch: those before it in the order, and those after it
    have hsorted : (file, f) ∈ p.sorted := p.sorted_perm.mem_iff.mpr hmem
    obtain ⟨before, after, hsplit⟩ := List.append_of_mem hsorted
    have hothers : ∀ x ∈ before ++ after, place file ≠ place x.1 := by
      intro x hx heq
      have hx' : x ∈ p.files := by
        rw [← p.sorted_perm.mem_iff, hsplit]
        grind
      have hname : x.1 = file := halone x.1 (List.mem_map_of_mem hx') heq.symm
      rw [hsplit, List.map_append, List.map_cons, List.nodup_middle, List.nodup_cons,
        ← List.map_append] at hnames
      exact hnames.1 (List.mem_map.mpr ⟨x, hx, hname⟩)
    have hbefore := content_applyFiles hstore (fun x hx => hothers x (List.mem_append_left _ hx)) disk
    -- the other files are written, but to places of their own, so what stands here after is what this one left
    have hafter : content out.2 (place file) = content
        (applyFile store (applyFiles store before disk).2 file f).2 (place file) := by
      show content (applyFiles store p.sorted disk).2 (place file) = _
      rw [hsplit, applyFiles_append]
      exact content_applyFiles hstore (fun x hx => hothers x (List.mem_append_right _ hx)) _
    constructor
    -- a rendering that fails writes nothing; the others are elsewhere
    · intro e he
      rw [hafter, applyFile, he]
      exact hbefore
    · intro code hcode hfine
      refine ⟨?_, fun rendered hrun => mem_dryRun hmem hcode hrun⟩
      rw [hafter, applyFile, hcode]
      apply hstore.written
      show _ = (_, _)
      cases hwrite : (store.write (applyFiles store before disk).2 file code).1 with
      | ok _ => rw [← hwrite]
      | error e => exact absurd ⟨before, f, after, hsplit, .inr ⟨code, hcode, hwrite⟩⟩ (hfine e)
  · exact hnames.sublist (failures_sublist store p.sorted disk)
  -- a path no file of the patch is written to keeps its content through the whole list
  · intro q hq
    refine content_applyFiles hstore (fun x hx => ?_) disk
    have hx' : x ∈ p.files := p.sorted_perm.mem_iff.mp hx
    exact (hq x.1 (List.mem_map_of_mem hx')).symm

/-- A patch of three files.  A comment with a zero byte makes the second no source, and the third has become a
    directory: both are reported, the second stays as it is, and the first is written all the same. -/
theorem apply_isolates_in_a_folder :
    let source := Text.encode "package a\n\nfunc F() {}\n"
    let told := Text.encode "package a\n\n// F does.\nfunc F() {}\n"
    let disk : FileTree := [.file "a.go" source, .file "b.go" source, .file "c.go" source]
    let disk' : FileTree := [.file "a.go" source, .file "b.go" source, .dir "c.go" []]
    let first := (comment { folder := {} } disk "a.go" "func:F" "F does.").2
    let second := (first.comment disk "b.go" "func:F" "F\x00does.").2
    let p := (second.comment disk "c.go" "func:F" "F does.").2
    let out := p.apply {} disk'
    p.files.map Prod.fst = ["a.go", "b.go", "c.go"] ∧
      (∀ file ∈ p.files.map Prod.fst, p.Alone Path.parts file) ∧
      FileTree.content? ["a.go"] out.2 = some told ∧ FileTree.content? ["b.go"] out.2 = some source ∧
      (∃ e, ("b.go", e) ∈ out.1) ∧ (∃ e, ("c.go", e) ∈ out.1) ∧ ∀ e, ("a.go", e) ∉ out.1 := by
  intro source told disk disk' first second p out
  have hrendered : p.files.map (fun x => (x.1, (x.2.render x.1).toOption))
      = [("a.go", some told), ("b.go", none), ("c.go", some told)] := by decide +kernel
  have hnames : p.files.map Prod.fst = ["a.go", "b.go", "c.go"] := by
    simpa [List.map_map, Function.comp_def] using congrArg (List.map Prod.fst) hrendered
  have hsorted : p.sorted = p.files := sorted_of_ordered (by rw [hnames]; decide)
  have halone : ∀ file ∈ p.files.map Prod.fst, p.Alone Path.parts file := by
    rw [hnames]
    intro file hfile other hother
    rw [hnames] at hother
    revert file other
    decide
  have hp : p.Reachable := .comment (.comment (.comment (.fresh {} _ _) _ _ _ _) _ _ _ _) _ _ _ _
  obtain ⟨hown, hfails, -, -⟩ := apply_isolates (Folder.store_lawful {}) hp disk'
  obtain ⟨f, g, h, hfiles⟩ : ∃ f g h, p.files = [("a.go", f), ("b.go", g), ("c.go", h)] := by
    obtain ⟨⟨_, f⟩, others, hfiles, rfl, htwo⟩ := List.map_eq_cons_iff.mp hnames
    obtain ⟨⟨_, g⟩, last, rfl, rfl, hone⟩ := List.map_eq_cons_iff.mp htwo
    obtain ⟨⟨_, h⟩, none, rfl, rfl, hnone⟩ := List.map_eq_cons_iff.mp hone
    exact ⟨f, g, h, by rw [hfiles, List.map_eq_nil_iff.mp hnone]⟩
  obtain ⟨hf, hg, hh⟩ : (f.render "a.go").toOption = some told ∧ (g.render "b.go").toOption = none ∧
      (h.render "c.go").toOption = some told := by simpa [hfiles] using hrendered
  replace hf := eq_ok_of_toOption hf
  replace hh := eq_ok_of_toOption hh
  obtain ⟨e, hg⟩ : ∃ e, g.render "b.go" = .error e := by
    cases hrender : g.render "b.go" with
    | error e => exact ⟨e, rfl⟩
    | ok code => rw [hrender] at hg; cases hg
  obtain ⟨e', hrefused⟩ : ∃ e', ((Folder.store {}).write
      (applyFiles (Folder.store {}) [("a.go", f), ("b.go", g)] disk').2 "c.go" told).1 = .error e' := by
    simp only [applyFiles, applyFile, hf, hg]
    exact ⟨_, rfl⟩
  -- the first file is the one before all others, and writing it is not refused
  have hfine : ∀ e, ¬p.Fails (Folder.store {}) disk' "a.go" e := by
    rintro e ⟨before, k, after, hsplit, hwrong⟩
    rw [hsorted, hfiles] at hsplit
    cases before with
    | cons x before =>
      have hlater : ("a.go", k) ∈ [("b.go", g), ("c.go", h)] := by
        rw [(List.cons.inj hsplit).2]
        exact List.mem_append_right _ List.mem_cons_self
      simp at hlater
    | nil =>
      cases hsplit
      rcases hwrong with hrender | ⟨code, hcode, hwrite⟩
      · cases hf.symm.trans hrender
      · cases hf.symm.trans hcode
        cases hwrite
  have hmem (x : String × PatchFile) (hx : x ∈ [("a.go", f), ("b.go", g), ("c.go", h)]) : x ∈ p.files := by
    rwa [hfiles]
  have hplaced (x : String × PatchFile) (hx : x ∈ [("a.go", f), ("b.go", g), ("c.go", h)]) :
      p.Alone Path.parts x.1 := halone x.1 (List.mem_map_of_mem (hmem x hx))
  refine ⟨hnames, halone, ?_, ?_, ⟨e, (hfails _ _).mpr ?_⟩, ⟨e', (hfails _ _).mpr ?_⟩, fun e he => ?_⟩
  · exact ((hown "a.go" f (hmem _ (by simp)) (hplaced ("a.go", f) (by simp))).2 told hf hfine).1
  · exact (hown "b.go" g (hmem _ (by simp)) (hplaced ("b.go", g) (by simp))).1 e hg
  · exact ⟨[("a.go", f)], g, [("c.go", h)], by rw [hsorted, hfiles]; rfl, .inl hg⟩
  · exact ⟨[("a.go", f), ("b.go", g)], h, [], by rw [hsorted, hfiles]; rfl, .inr ⟨told, hh, hrefused⟩⟩
  · exact hfine e ((hfails _ _).mp he)

/-- Two names of one file are two files of a patch, and the one that is written last is what stays: the
    comment that was made under the other name is lost, and no failure is reported. -/
theorem apply_loses_a_respelled_file :
    let disk : FileTree := [.file "a.go" (Text.encode "package a\n\nfunc F() {}\n\nfunc G() {}\n")]
    let first := (comment { folder := {} } disk "./a.go" "func:F" "F does.").2
    let p := (first.comment disk "a.go" "func:G" "G does.").2
    let out := p.apply {} disk
    out.1.isEmpty = true ∧ ∃ f ∈ p.file? "./a.go", ∃ code ∈ (f.render "./a.go").toOption,
      FileTree.content? ["a.go"] out.2 ≠ some code := by
  intro disk first p out
  have hsorted : p.sorted = p.files := sorted_of_ordered (by decide +kernel)
  have hout : out = applyFiles (Folder.store {}) p.files disk := by rw [← hsorted]; rfl
  rw [hout]
  decide +kernel

end Patch

end Docsmith
