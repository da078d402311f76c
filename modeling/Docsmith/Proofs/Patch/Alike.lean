import Docsmith.Proofs.Patch.Refusals

namespace Docsmith

open Text

/-!
# Patches that differ only in the order of their tables

The files of a patch, their texts and their edits are tables in the order in which their keys came up.
What is rendered does not depend on this order: an edit begins where its key tells, so that no two of them
tie when they are sorted.

* `DocSlot.key_inj`: the key of a slot tells its start.
* `EditSet.Keyed`: every edit stands under the key of a slot that starts where it does, and
  `EditSet.Keyed.ordered_eq`: so the order of the table does not matter.
* `PatchFile.Alike`, `Patch.Alike`: the same lookups.
* `Patch.Tidy`: what is true of the tables of a patch, and `Patch.Reachable.tidy`.
* `Patch.dryRun_eq`: patches that are alike are rendered alike.
-/

/-! ### Edits under the keys of slots -/

/-- The key of a slot tells its start. -/
theorem DocSlot.key_inj {s s' : DocSlot} : s.key = s'.key ↔ s.start = s'.start := by
  refine ⟨fun h => ?_, fun h => by rw [key, key, h]⟩
  exact toString_nat_inj.mp ((String.append_right_inj _).mp h)

/-- Each key stands once, and it is that of a slot which starts where the edit does. -/
structure EditSet.Keyed (s : EditSet) : Prop where
  nodup : (s.entries.map Prod.fst).Nodup
  starts : ∀ x ∈ s.entries, ∃ slot : DocSlot, x.1 = slot.key ∧ x.2.start = slot.start

namespace EditSet

variable {s s' : EditSet}

/-- Without edits there is nothing to ask for. -/
theorem keyed_of_nil (h : s.entries = []) : s.Keyed where
  nodup := by simp [h]
  starts := by simp [h]

/-- An edit under the key of its slot keeps the table so. -/
theorem Keyed.edit (h : s.Keyed) (slot : DocSlot) {e : Edit} (he : e.start = slot.start) :
    (s.edit slot.key e).Keyed where
  nodup := nodup_put (put slot.key e) rfl (put_cons slot.key e) h.nodup
  starts x hx := by
    rcases mem_put (put slot.key e) rfl (put_cons slot.key e) hx with rfl | hx
    · exact ⟨slot, rfl, he⟩
    · exact h.starts x hx

/-- Two edits that start at the same place are one. -/
theorem Keyed.start_inj (h : s.Keyed) {x y : String × Edit} (hx : x ∈ s.entries)
    (hy : y ∈ s.entries) (hstart : x.2.start = y.2.start) : x = y := by
  obtain ⟨slot, hxkey, hxstart⟩ := h.starts x hx
  obtain ⟨slot', hykey, hystart⟩ := h.starts y hy
  have hkey : x.1 = y.1 := by
    rw [hxkey, hykey, DocSlot.key_inj]
    omega
  exact List.inj_on_of_nodup_map h.nodup hx hy hkey

/-- Tables with the same edits under the same keys have the same entries. -/
theorem Keyed.entries_perm (h : s.Keyed) (h' : s'.Keyed)
    (hsame : ∀ key, s.pending? key = s'.pending? key) : s.entries.Perm s'.entries := by
  refine (List.perm_ext_iff_of_nodup h.nodup.of_map h'.nodup.of_map).mpr fun x => ?_
  rw [← find?_eq_some_iff h.nodup, ← find?_eq_some_iff h'.nodup]
  exact iff_of_eq (congrArg (· = some x.2) (hsame x.1))

/-- The edits of a set are in order. -/
theorem pairwise_ordered (s : EditSet) : s.ordered.Pairwise fun a b => a.before b = true := by
  refine List.pairwise_mergeSort (fun a b c hab hbc => ?_) (fun a b => ?_) _
  · simp only [Edit.before, Bool.or_eq_true, Bool.and_eq_true, decide_eq_true_eq, beq_iff_eq] at *
    omega
  · simp only [Edit.before, Bool.or_eq_true, Bool.and_eq_true, decide_eq_true_eq, beq_iff_eq]
    omega

/-- No edit of a set starts before the one it comes behind. -/
theorem pairwise_start (s : EditSet) : s.ordered.Pairwise fun a b => a.start ≤ b.start := by
  refine s.pairwise_ordered.imp fun hbefore => ?_
  simp only [Edit.before, Bool.or_eq_true, Bool.and_eq_true, decide_eq_true_eq, beq_iff_eq] at hbefore
  omega

/-- No two edits start at one place. -/
theorem Keyed.nodup_start (h : s.Keyed) : (s.ordered.map Edit.start).Nodup := by
  have hperm : s.ordered.Perm (s.entries.map (·.2)) := List.mergeSort_perm _ _
  refine (hperm.map Edit.start).nodup_iff.mpr ?_
  rw [List.map_map]
  exact List.Nodup.map_on (fun x hx y hy => h.start_inj hx hy) h.nodup.of_map

/-- **The order of the table does not matter** to the order in which its edits are made. -/
theorem Keyed.ordered_eq (h : s.Keyed) (h' : s'.Keyed)
    (hsame : ∀ key, s.pending? key = s'.pending? key) : s.ordered = s'.ordered := by
  have hperm : (s.entries.map Prod.snd).Perm (s'.entries.map Prod.snd) :=
    (h.entries_perm h' hsame).map Prod.snd
  have hordered : s.ordered.Perm s'.ordered :=
    ((List.mergeSort_perm _ _).trans hperm).trans (List.mergeSort_perm _ _).symm
  refine hordered.eq_of_pairwise (fun a b ha hb hab hba => ?_) s.pairwise_ordered s'.pairwise_ordered
  -- no two edits of one table start at the same place
  have hstart : a.start = b.start := by
    simp only [Edit.before, Bool.or_eq_true, Bool.and_eq_true, decide_eq_true_eq, beq_iff_eq] at *
    omega
  obtain ⟨x, hx, rfl⟩ := List.mem_map.mp ((List.mergeSort_perm _ _).mem_iff.mp ha)
  obtain ⟨y, hy, rfl⟩ := List.mem_map.mp (hperm.mem_iff.mpr ((List.mergeSort_perm _ _).mem_iff.mp hb))
  rw [h.start_inj hx hy hstart]

end EditSet

/-! ### Files -/

/-- Two files of one source for which the same texts and edits wait. -/
structure PatchFile.Alike (f g : PatchFile) : Prop where
  language : f.language = g.language
  code : f.tree.code = g.tree.code
  declarations : f.declarations = g.declarations
  texts : ∀ key, f.text? key = g.text? key
  edits : ∀ key, f.tree.edits.pending? key = g.tree.edits.pending? key

namespace PatchFile

variable {f g : PatchFile}

theorem Alike.refl (f : PatchFile) : f.Alike f := ⟨rfl, rfl, rfl, fun _ => rfl, fun _ => rfl⟩

theorem Alike.symm (h : f.Alike g) : g.Alike f :=
  ⟨h.language.symm, h.code.symm, h.declarations.symm, fun k => (h.texts k).symm,
    fun k => (h.edits k).symm⟩

theorem Alike.trans {k : PatchFile} (h : f.Alike g) (h' : g.Alike k) : f.Alike k :=
  ⟨h.language.trans h'.language, h.code.trans h'.code, h.declarations.trans h'.declarations,
    fun key => (h.texts key).trans (h'.texts key), fun key => (h.edits key).trans (h'.edits key)⟩

@[simp] theorem language_setDoc (f : PatchFile) (slot : DocSlot) (identifier text : String) :
    (f.setDoc slot identifier text).language = f.language := rfl

/-- The same text for a slot keeps files alike. -/
theorem Alike.setDoc (h : f.Alike g) (slot : DocSlot) (identifier text : String) :
    (f.setDoc slot identifier text).Alike (g.setDoc slot identifier text) where
  language := h.language
  code := h.code
  declarations := h.declarations
  texts key := by simp [h.texts]
  edits key := by simp [h.edits, h.language]

/-- Texts for different slots come to the same in either order. -/
theorem alike_setDoc_setDoc (f : PatchFile) {slot slot' : DocSlot} (hkey : slot.key ≠ slot'.key)
    (identifier text identifier' text' : String) :
    ((f.setDoc slot identifier text).setDoc slot' identifier' text').Alike
      ((f.setDoc slot' identifier' text').setDoc slot identifier text) where
  language := rfl
  code := rfl
  declarations := rfl
  texts key := by
    by_cases h : slot.key = key
    · have h' : slot'.key ≠ key := fun h' => hkey (h.trans h'.symm)
      simp [h, h']
    · simp [h]
  edits key := by
    by_cases h : slot.key = key
    · have h' : slot'.key ≠ key := fun h' => hkey (h.trans h'.symm)
      simp [h, h']
    · simp [h]

/-- Files that are alike are rendered alike. -/
theorem Alike.render_eq (h : f.Alike g) (hf : f.tree.edits.Keyed) (hg : g.tree.edits.Keyed)
    (file : String) : f.render file = g.render file := by
  have hcode : f.tree.render = g.tree.render := by
    rw [SourceTree.render, SourceTree.render, EditSet.render, EditSet.render, h.code,
      hf.ordered_eq hg h.edits]
  simp only [PatchFile.render, hcode, h.language]

end PatchFile

/-! ### Patches -/

namespace Patch

variable {p q : Patch} {file : String}

/-- The names of the files stand once, and every edit under the key of its slot. -/
structure Tidy (p : Patch) : Prop where
  names : (p.files.map Prod.fst).Nodup
  edits : ∀ file f, p.file? file = some f → f.tree.edits.Keyed

/-- A file that is opened in a tidy patch has its edits under the keys of their slots. -/
theorem Tidy.openFile (hp : p.Tidy) (hlanguages : p.languages.Reads) {disk : FileTree} {f : PatchFile}
    (h : p.openFile disk file = .ok f) : f.tree.edits.Keyed := by
  unfold Patch.openFile at h
  split at h
  · rename_i f' hfile
    cases h
    exact hp.edits file f hfile
  · obtain ⟨code, -, huntouched⟩ := untouched_load hlanguages f h
    exact EditSet.keyed_of_nil huntouched.edits

/-- Putting a file whose edits are so keeps a patch tidy. -/
theorem Tidy.putFile (hp : p.Tidy) {f : PatchFile} (hf : f.tree.edits.Keyed) :
    ({ p with files := putFile file f p.files } : Patch).Tidy where
  names := putFile_nodup hp.names
  edits other g hg := by
    rw [file?_putFile] at hg
    split at hg
    · cases hg
      exact hf
    · exact hp.edits other g hg

/-- A comment keeps a patch tidy. -/
theorem Tidy.remark (hp : p.Tidy) (hlanguages : p.languages.Reads) (c : Remark) :
    (p.remark c).2.Tidy := by
  unfold Patch.remark comment
  split
  · exact hp
  · rename_i f hopen
    have hf := hp.openFile hlanguages hopen
    split
    · exact hp.putFile hf
    · rename_i f' hcomment
      refine hp.putFile ?_
      -- the comment was accepted, so that an edit was recorded under the key of its slot
      unfold PatchFile.comment at hcomment
      split at hcomment
      · cases hcomment
      · split at hcomment
        · cases hcomment
        · cases hcomment
          exact hf.edit _ rfl

theorem languages_remark (p : Patch) (c : Remark) : (p.remark c).2.languages = p.languages := by
  obtain ⟨files, hfiles⟩ := remark_files p c
  rw [hfiles]

/-- **Reachable patches are tidy.** -/
theorem Reachable.tidy (h : p.Reachable) (hlanguages : p.languages.Reads) : p.Tidy := by
  induction h with
  | fresh folder languages override => exact ⟨List.nodup_nil, fun _ _ h => by cases h⟩
  | @comment p _ disk file identifier text ih =>
    have hsame := languages_remark p ⟨disk, file, identifier, text⟩
    have hbefore : p.languages.Reads := hsame ▸ hlanguages
    exact (ih hbefore).remark hbefore ⟨disk, file, identifier, text⟩

/-- Two patches with the same settings, with files under the same names that are alike. -/
structure Alike (p q : Patch) : Prop where
  folder : p.folder = q.folder
  languages : p.languages = q.languages
  override : p.override = q.override
  files : ∀ file, Option.Rel PatchFile.Alike (p.file? file) (q.file? file)

theorem Alike.refl (p : Patch) : p.Alike p where
  folder := rfl
  languages := rfl
  override := rfl
  files file := by
    cases p.file? file with
    | none => exact .none
    | some f => exact .some (PatchFile.Alike.refl f)

theorem Alike.symm (h : p.Alike q) : q.Alike p where
  folder := h.folder.symm
  languages := h.languages.symm
  override := h.override.symm
  files file := by
    have hrel := h.files file
    generalize p.file? file = f, q.file? file = g at hrel ⊢
    cases hrel with
    | none => exact .none
    | some hfg => exact .some hfg.symm

theorem Alike.trans {r : Patch} (h : p.Alike q) (h' : q.Alike r) : p.Alike r where
  folder := h.folder.trans h'.folder
  languages := h.languages.trans h'.languages
  override := h.override.trans h'.override
  files file := by
    have hpq := h.files file
    have hqr := h'.files file
    generalize p.file? file = f, q.file? file = g, r.file? file = k at hpq hqr ⊢
    cases hpq with
    | none => exact hqr
    | some hfg =>
      cases hqr with
      | some hgk => exact .some (hfg.trans hgk)

/-- Putting files that are alike under one name keeps patches alike. -/
theorem Alike.putFile (h : p.Alike q) {f g : PatchFile} (hfg : f.Alike g) :
    ({ p with files := putFile file f p.files } : Patch).Alike
      { q with files := putFile file g q.files } where
  folder := h.folder
  languages := h.languages
  override := h.override
  files other := by
    rw [file?_putFile, file?_putFile]
    split
    · exact .some hfg
    · exact h.files other

/-! ### Renderings -/

/-- The files by name, each with what it is rendered to. -/
def renderings (p : Patch) : List (String × Except Failure Bytes) :=
  p.sorted.map fun x => (x.1, x.2.render x.1)

/-- A dry run tells what the files are rendered to. -/
theorem dryRun_eq_mapM (p : Patch) :
    p.dryRun = p.renderings.mapM fun x => do return (x.1, ← x.2) := by
  rw [renderings, List.mapM_map]
  rfl

/-- What is rendered under one name is the file of this name. -/
theorem filter_renderings (hp : p.Tidy) (file : String) :
    p.renderings.filter (·.1 == file)
      = ((p.file? file).map fun f => (file, f.render file)).toList := by
  have hsorted : p.sorted.filter (·.1 == file) = p.files.filter (·.1 == file) :=
    filter_mergeSort_name Prod.fst p.files file
  rw [renderings, List.filter_map, Function.comp_def, hsorted, filter_files hp.names]
  cases p.file? file <;> rfl

/-- The renderings are in the order of the names. -/
theorem pairwise_renderings (p : Patch) : p.renderings.Pairwise fun x y => x.1 ≤ y.1 :=
  List.pairwise_map.mpr (pairwise_mergeSort_name Prod.fst p.files)

/-- Patches that are alike have the same renderings. -/
theorem Alike.renderings_eq (h : p.Alike q) (hp : p.Tidy) (hq : q.Tidy) :
    p.renderings = q.renderings := by
  -- both lists are sorted by name and name each file once, so they agree if they agree at every file
  refine eq_of_filter_name Prod.fst p.pairwise_renderings q.pairwise_renderings fun file => ?_
  rw [filter_renderings hp, filter_renderings hq]
  have hrel := h.files file
  -- a file stands in both patches or in neither, and where it does it renders the same
  cases hf : p.file? file with
  | none =>
    rw [hf] at hrel
    cases hg : q.file? file with
    | none => rfl
    | some g => rw [hg] at hrel; cases hrel
  | some f =>
    rw [hf] at hrel
    cases hg : q.file? file with
    | none => rw [hg] at hrel; cases hrel
    | some g =>
      rw [hg] at hrel
      cases hrel with
      | some hfg =>
        simp [hfg.render_eq (hp.edits file f hf) (hq.edits file g hg)]

/-- **Patches that are alike are rendered alike**, or fail alike. -/
theorem Alike.dryRun_eq (h : p.Alike q) (hp : p.Tidy) (hq : q.Tidy) : p.dryRun = q.dryRun := by
  rw [dryRun_eq_mapM, dryRun_eq_mapM, h.renderings_eq hp hq]

/-- Patches that are alike have the same files. -/
theorem Alike.fileNames_eq (h : p.Alike q) (hp : p.Tidy) (hq : q.Tidy) : p.fileNames = q.fileNames := by
  have hnames (p : Patch) : p.fileNames = p.renderings.map Prod.fst := by
    rw [renderings, List.map_map]
    rfl
  rw [hnames, hnames, h.renderings_eq hp hq]

end Patch

end Docsmith
