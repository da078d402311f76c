import Docsmith.Files.Folder
import Docsmith.Proofs.Files.Tree

namespace Docsmith

/-!
# Listed files can be read

The path of a file that is listed below a directory leads to its content again, and so it does from the place that
a folder has on the disk.

* `Path.parts_slash`, `Path.parts_name`: the names along a path that goes on.
* `FileTree.entry?_of_mem`, `FileTree.WellFormed.subtree?`: entries and directories of a well-formed directory.
* `FileTree.read_of_mem_files`: a file that is listed is read at its path.
* `Folder.read_of_mem_entries`: so is one of the files of a folder.
-/

namespace Path

/-- A slash at the end of a path adds no name. -/
theorem parts_slash (path : String) : parts (path ++ "/") = parts path := by
  have hslash := parts_append path ""
  rw [String.append_empty] at hslash
  exact hslash.trans (List.append_nil _)

/-- A name at the end of a path is the last along it. -/
theorem parts_name {base name : String} (hbase : IsBase base) (hname : IsName name) :
    parts (base ++ name) = parts base ++ [name] := by
  have hparts : parts name = [name] := hname
  cases hbase with
  | nil =>
    rw [String.empty_append, hparts]
    rfl
  | slash path => rw [parts_append, hparts, parts_slash]

end Path

namespace FileTree

open Docsmith.Path

variable {t inner : FileTree} {e : Entry} {base path : String} {content : Bytes} {names rest : List String}

/-- An entry of a well-formed directory is found under its name. -/
theorem entry?_of_mem (ht : WellFormed t) (he : e ∈ t) : entry? t e.name = some e := by
  induction t with
  | nil => cases he
  | cons first rest ih =>
    obtain ⟨-, hother, hrest⟩ := ht
    rcases List.mem_cons.mp he with rfl | hmem
    · exact List.find?_cons_of_pos (by simp)
    · have hne : ¬ (first.name == e.name) = true := by simpa using Ne.symm (hother e hmem)
      show (first :: rest).find? (fun x => x.name == e.name) = some e
      rw [List.find?_cons_of_neg (by exact hne)]
      exact ih hrest hmem

/-- What is below a directory of a well-formed one is well-formed. -/
theorem WellFormed.subtree? (ht : WellFormed t) (h : subtree? names t = some inner) : WellFormed inner := by
  induction names generalizing t with
  | nil =>
    cases h
    exact ht
  | cons name names ih =>
    unfold FileTree.subtree? at h
    split at h
    · rename_i hentry
      exact ih (ht.of_entry? hentry).2 h
    · cases h

/-- Reading goes into a directory if more names follow. -/
theorem read_of_dir {name dir : String} (hrest : rest ≠ []) (hentry : entry? t name = some (.dir dir inner)) :
    read (name :: rest) t = read rest inner := by
  cases rest with
  | nil => exact absurd rfl hrest
  | cons next more =>
    rw [read, hentry]
    exact List.cons_ne_nil next more

/-- Reading below a directory. -/
theorem read_append (h : subtree? names t = some inner) (hrest : rest ≠ []) :
    read (names ++ rest) t = read rest inner := by
  induction names generalizing t with
  | nil =>
    cases h
    rfl
  | cons name names ih =>
    unfold subtree? at h
    split at h
    · rename_i hentry
      rw [List.cons_append, read_of_dir (List.append_ne_nil_of_right_ne_nil names hrest) hentry, ih h]
    · cases h

/-- What is listed at a path behind a base is read in a directory by the names behind those of the base. -/
def Found (t : FileTree) (base path : String) (content : Bytes) : Prop :=
  ∃ names, names ≠ [] ∧ parts path = parts base ++ names ∧ read names t = .ok content

mutual

/-- The files of an entry are found in its directory. -/
theorem found_of_mem_filesOf {base : String} {t : FileTree} (hbase : IsBase base) :
    ∀ {e : Entry}, EntryWellFormed e → entry? t e.name = some e → (path, content) ∈ filesOf base e →
      Found t base path content
  | .file name stored, hname, hentry, hmem => by
    rw [filesOf, List.mem_singleton] at hmem
    cases hmem
    refine ⟨[name], List.cons_ne_nil _ _, parts_name hbase hname, ?_⟩
    rw [read, show entry? t name = _ from hentry]
  | .dir name entries, ⟨hname, hentries⟩, hentry, hmem => by
    have hbelow : ∀ e ∈ entries, entry? entries e.name = some e := fun e he => entry?_of_mem hentries he
    obtain ⟨names, hne, hparts, hread⟩ := found_of_mem_filesBelow (.slash (base ++ name)) hentries hbelow hmem
    refine ⟨name :: names, List.cons_ne_nil _ _, ?_, ?_⟩
    · rw [hparts, parts_slash, parts_name hbase hname, List.append_assoc, List.singleton_append]
    · exact (read_of_dir hne hentry).trans hread

/-- The files of some entries of a directory are found in it. -/
theorem found_of_mem_filesBelow {base : String} {t : FileTree} (hbase : IsBase base) :
    ∀ {entries : List Entry}, WellFormed entries → (∀ e ∈ entries, entry? t e.name = some e) →
      (path, content) ∈ filesBelow base entries → Found t base path content
  | [], _, _, hmem => by
    rw [filesBelow] at hmem
    cases hmem
  | e :: rest, ⟨he, _, hrest⟩, hentries, hmem => by
    rw [filesBelow, List.mem_append] at hmem
    rcases hmem with hfirst | hlater
    · exact found_of_mem_filesOf hbase he (hentries e List.mem_cons_self) hfirst
    · exact found_of_mem_filesBelow hbase hrest (fun e he => hentries e (List.mem_cons_of_mem _ he)) hlater

end

/-- **A file that is listed is read at its path.** -/
theorem read_of_mem_files (ht : t.WellFormed) (hmem : (path, content) ∈ t.files) :
    parts path ≠ [] ∧ read (parts path) t = .ok content := by
  obtain ⟨names, hne, hparts, hread⟩ := found_of_mem_filesBelow .nil ht (fun e he => entry?_of_mem ht he) hmem
  have hnames : parts path = names := hparts
  rw [hnames]
  exact ⟨hne, hread⟩

end FileTree

namespace Folder

variable {f : Folder} {disk : FileTree}

/-- The directory of a folder on a well-formed disk is well-formed. -/
theorem wellFormed_entries (hdisk : disk.WellFormed) : (f.entries disk).WellFormed := by
  unfold entries
  cases hsub : FileTree.subtree? f.names disk with
  | none => exact trivial
  | some inner => exact hdisk.subtree? hsub

/-- **A file of a folder can be read.** -/
theorem read_of_mem_entries (hdisk : disk.WellFormed) {file : String} {content : Bytes}
    (hmem : (file, content) ∈ (f.entries disk).files) : f.read disk file = .ok content := by
  have hwell : (f.entries disk).WellFormed := wellFormed_entries hdisk
  unfold entries at hmem hwell
  unfold read
  cases hsub : FileTree.subtree? f.names disk with
  | none =>
    rw [hsub] at hmem
    cases hmem
  | some inner =>
    rw [hsub] at hmem hwell
    have hfound : Path.parts file ≠ [] ∧ FileTree.read (Path.parts file) inner = .ok content :=
      FileTree.read_of_mem_files hwell hmem
    rw [FileTree.read_append hsub hfound.1, hfound.2]
    rfl

end Folder

end Docsmith
