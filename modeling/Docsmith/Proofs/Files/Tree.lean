import Docsmith.Files.Tree
import Docsmith.Proofs.Files.Path
import Docsmith.Proofs.Returns

namespace Docsmith.FileTree

/-!
# Well-formed directories

The entries of a directory have names, each its own.  So it is for whatever is written into a directory,
and so every file in it has a path of its own.

* `EntryWellFormed`, `WellFormed`: the entries have names, each its own in its directory.
* `WellFormed.put`, `WellFormed.makeDir`, `WellFormed.write`: writing keeps it so.
* `wellFormed_ofFiles`: the directory that holds some files is well-formed.
* `nodup_files`: every file has a path of its own.
-/

open Docsmith.Path

mutual

/-- The entry has a name, and so have the entries below it, each its own in its directory. -/
def EntryWellFormed : Entry → Prop
  | .file name _ => IsName name
  | .dir name entries => IsName name ∧ WellFormed entries

/-- The entries have names, each its own, and so have the entries below them. -/
def WellFormed : FileTree → Prop
  | [] => True
  | e :: rest => EntryWellFormed e ∧ (∀ other ∈ rest, other.name ≠ e.name) ∧ WellFormed rest

end

variable {e : Entry} {t : FileTree} {path : List String}

theorem EntryWellFormed.isName (he : EntryWellFormed e) : IsName e.name := by
  cases e with
  | file name content => exact he
  | dir name entries => exact he.1

theorem WellFormed.of_mem (ht : WellFormed t) (he : e ∈ t) : EntryWellFormed e := by
  induction t with
  | nil => cases he
  | cons first rest ih =>
    rcases List.mem_cons.mp he with rfl | hrest
    · exact ht.1
    · exact ih ht.2.2 hrest

theorem WellFormed.of_entry? {name : String} (ht : WellFormed t) (he : entry? t name = some e) :
    EntryWellFormed e :=
  ht.of_mem (List.mem_of_find?_eq_some he)

/-! ### Writing -/

theorem mem_put {x : Entry} (hx : x ∈ put e t) : x = e ∨ x ∈ t := by
  induction t with
  | nil => exact .inl (List.mem_singleton.mp hx)
  | cons old rest ih =>
    unfold put at hx
    split at hx
    · exact (List.mem_cons.mp hx).imp_right (List.mem_cons_of_mem old)
    · rcases List.mem_cons.mp hx with rfl | hrest
      · exact .inr List.mem_cons_self
      · exact (ih hrest).imp_right (List.mem_cons_of_mem old)

/-- An entry that takes the place of the one with its name, or is new. -/
theorem WellFormed.put (he : EntryWellFormed e) (ht : WellFormed t) : WellFormed (put e t) := by
  induction t with
  | nil => exact ⟨he, by simp, trivial⟩
  | cons old rest ih =>
    obtain ⟨hold, hother, hrest⟩ := ht
    unfold FileTree.put
    split
    · rename_i hname
      exact ⟨he, fun other hmem => eq_of_beq hname ▸ hother other hmem, hrest⟩
    · rename_i hname
      refine ⟨hold, fun other hmem => ?_, ih hrest⟩
      rcases mem_put hmem with rfl | hmem
      · exact fun heq => hname (by simp [heq])
      · exact hother other hmem

/-- New directories with names keep a directory well-formed. -/
theorem WellFormed.makeDir (hpath : ∀ name ∈ path, IsName name) (ht : WellFormed t) :
    Returns (makeDir path t) WellFormed := by
  induction path generalizing t with
  | nil => exact .pure ht
  | cons name rest ih =>
    obtain ⟨hname, hrest⟩ := List.forall_mem_cons.mp hpath
    unfold FileTree.makeDir
    split
    · rename_i hentry
      exact (ih hrest (ht.of_entry? hentry).2).map fun inner hinner => ht.put ⟨hname, hinner⟩
    · exact .error _ _
    · have hempty : WellFormed [] := trivial
      exact (ih hrest hempty).map fun inner hinner => ht.put ⟨hname, hinner⟩

/-- A file with a name keeps a directory well-formed. -/
theorem WellFormed.write (content : Bytes) (hpath : ∀ name ∈ path, IsName name) (ht : WellFormed t) :
    Returns (write content path t) WellFormed := by
  induction path generalizing t with
  | nil => exact .error _ _
  | cons name rest ih =>
    obtain ⟨hname, hrest⟩ := List.forall_mem_cons.mp hpath
    cases rest with
    | nil =>
      -- a step down the path leaves the tree well formed, since what it puts has the name of the step
      unfold FileTree.write
      split
      · exact .error _ _
      · exact .pure (ht.put hname)
    | cons next more =>
      unfold FileTree.write
      split
      · rename_i hentry
        exact (ih hrest (ht.of_entry? hentry).2).map fun inner hinner => ht.put ⟨hname, hinner⟩
      · exact .error _ _
      · exact .error _ _

theorem WellFormed.withDir (ht : WellFormed t) (path : String) : WellFormed (t.withDir path) := by
  unfold FileTree.withDir
  split
  · rename_i hmade
    exact ht.makeDir (fun _ => isName_of_mem_parts) _ hmade
  · exact ht

theorem WellFormed.withFile (ht : WellFormed t) (path : String) (content : Bytes) :
    WellFormed (t.withFile path content) := by
  have hnames : ∀ name ∈ parts path, IsName name := fun _ => isName_of_mem_parts
  have hdirs : ∀ name ∈ (parts path).dropLast, IsName name := fun name hname =>
    hnames name (List.dropLast_subset _ hname)
  unfold FileTree.withFile
  dsimp only
  split
  · exact ht
  · rename_i hmade
    split
    · exact ht
    · rename_i hwritten
      exact (ht.makeDir hdirs _ hmade).write content hnames _ hwritten

/-- **The directory that holds some files is well-formed.** -/
theorem wellFormed_ofFiles (files : List (String × Bytes)) (dirs : List String) :
    WellFormed (ofFiles files dirs) := by
  -- one directory and one file after the other, from the empty directory on
  have hempty : WellFormed [] := trivial
  have hdirs : WellFormed (dirs.foldl FileTree.withDir []) :=
    List.foldlRecOn dirs _ hempty fun t ht dir _ => ht.withDir dir
  exact List.foldlRecOn files _ hdirs fun t ht file _ => ht.withFile file.1 file.2

/-! ### Paths of files -/

/-- What stands behind a name in a path: nothing, or a slash and what is below. -/
inductive Behind : String → Prop where
  | nil : Behind ""
  | slash (below : String) : Behind ("/" ++ below)

mutual

/-- The path of a file of an entry has the name of the entry behind the base. -/
theorem behind_of_mem_filesOf {base path : String} :
    ∀ e : Entry, path ∈ (filesOf base e).map Prod.fst →
      ∃ tail, path = base ++ e.name ++ tail ∧ Behind tail
  | .file name content, h => ⟨"", by simpa [filesOf, Entry.name] using h, .nil⟩
  | .dir name entries, h => by
    obtain ⟨below, rfl⟩ := base_of_mem_filesBelow entries (by simpa [filesOf] using h)
    exact ⟨"/" ++ below, by simp [Entry.name, String.append_assoc], .slash below⟩

/-- The path of a file of some entries begins with the base. -/
theorem base_of_mem_filesBelow {base path : String} :
    ∀ entries : List Entry, path ∈ (filesBelow base entries).map Prod.fst →
      ∃ below, path = base ++ below
  | [], h => by simp [filesBelow] at h
  | e :: rest, h => by
    rw [filesBelow, List.map_append, List.mem_append] at h
    rcases h with hfirst | hrest
    · obtain ⟨tail, rfl, -⟩ := behind_of_mem_filesOf e hfirst
      exact ⟨e.name ++ tail, String.append_assoc ..⟩
    · exact base_of_mem_filesBelow rest hrest

end

/-- The path of a file of some entries has the name of one of them behind the base. -/
theorem exists_entry_of_mem_filesBelow {base path : String} {entries : List Entry}
    (h : path ∈ (filesBelow base entries).map Prod.fst) :
    ∃ e ∈ entries, ∃ tail, path = base ++ e.name ++ tail ∧ Behind tail := by
  induction entries with
  | nil => simp [filesBelow] at h
  | cons e rest ih =>
    rw [filesBelow, List.map_append, List.mem_append] at h
    rcases h with hfirst | hrest
    · exact ⟨e, List.mem_cons_self, behind_of_mem_filesOf e hfirst⟩
    · obtain ⟨other, hmem, htail⟩ := ih hrest
      exact ⟨other, List.mem_cons_of_mem _ hmem, htail⟩

/-- The name at the beginning of a path is known by the path. -/
theorem eq_of_behind {name other tail tail' : String} (hname : IsName name) (hother : IsName other)
    (htail : Behind tail) (htail' : Behind tail') (h : name ++ tail = other ++ tail') : name = other := by
  -- the name is what is before the first slash
  have hfirst : ∀ {name tail : String}, IsName name → Behind tail →
      (name ++ tail).toList.takeWhile (· != '/') = name.toList := by
    intro name tail hname htail
    have hall : ∀ c ∈ name.toList, (c != '/') = true := fun c hc => by
      simpa using fun heq : c = '/' => hname.slash_not_mem (heq ▸ hc)
    rw [String.toList_append, List.takeWhile_append_of_pos hall]
    cases htail <;> simp
  rw [← String.toList_inj, ← hfirst hname htail, h, hfirst hother htail']

mutual

/-- The files of an entry have paths of their own. -/
theorem nodup_filesOf {base : String} :
    ∀ {e : Entry}, EntryWellFormed e → ((filesOf base e).map Prod.fst).Nodup
  | .file name content, _ => by simp [filesOf]
  | .dir name entries, he => by
    rw [filesOf]
    exact nodup_filesBelow he.2

/-- The files of some entries have paths of their own. -/
theorem nodup_filesBelow {base : String} :
    ∀ {entries : List Entry}, WellFormed entries → ((filesBelow base entries).map Prod.fst).Nodup
  | [], _ => by simp [filesBelow]
  | e :: rest, ⟨he, hother, hrest⟩ => by
    rw [filesBelow, List.map_append, List.nodup_append]
    refine ⟨nodup_filesOf he, nodup_filesBelow hrest, ?_⟩
    -- a path that two entries have would give them one name
    rintro path hfirst other hmem rfl
    obtain ⟨tail, rfl, htail⟩ := behind_of_mem_filesOf e hfirst
    obtain ⟨e', he', tail', hpath, htail'⟩ := exists_entry_of_mem_filesBelow hmem
    rw [String.append_assoc, String.append_assoc, String.append_right_inj] at hpath
    have hname : e.name = e'.name :=
      eq_of_behind he.isName (WellFormed.of_mem hrest he').isName htail htail' hpath
    exact hother e' he' hname.symm

end

/-- **Every file of a well-formed directory has a path of its own.** -/
theorem nodup_files (ht : t.WellFormed) : (t.files.map Prod.fst).Nodup := nodup_filesBelow ht

end Docsmith.FileTree
