import Docsmith.Files.Discovery
import Docsmith.Proofs.Files.Glob
import Docsmith.Proofs.Files.Tree
import Docsmith.Proofs.Sorting
import Docsmith.Proofs.Text.Order

namespace Docsmith.FileFilter

/-!
# What the walk finds

The walk does not go into a directory when a pattern to exclude matches a made-up name in it, an
underscore.  So it finds the wanted files that are below no such directory.  These are all the wanted files
when the patterns to exclude do not look at the names in a directory, as those that are there unless told
otherwise; a pattern that does look at them makes it miss files that no pattern excludes.

* `FileFilter.wanted`, `FileFilter.filtered`: plain filtering of all the files.
* `FileFilter.skips`: a directory above the path is not gone into.
* `foundBelow_eq`: the walk finds the wanted files that it does not skip.
* `discover_eq_filtered_iff`, `discover_default`: when plain filtering gives the same.
* `walk_finds`: what the walk finds.
-/

open FileTree Docsmith.Path

/-- The file at a path is wanted, by its name and the path. -/
def wants (f : FileFilter) (path : String) : Bool := f.accepts (fileName path) path

/-- The paths of the wanted files of a directory, whatever directories they are in. -/
def wanted (f : FileFilter) (t : FileTree) : List String := (t.files.map Prod.fst).filter f.wants

/-- The paths of the wanted files of a directory, sorted. -/
def filtered (f : FileFilter) (t : FileTree) : List String :=
  (f.wanted t).mergeSort fun a b => !(b < a)

/-- The directories above what a path leads to. -/
def above : List Char → List (List Char)
  | [] => []
  | c :: cs => if c == '/' then [] :: (above cs).map (c :: ·) else (above cs).map (c :: ·)

/-- A directory above the path is not gone into. -/
def skips (f : FileFilter) (path : String) : Bool :=
  (above path.toList).any fun dir => Glob.matchesAny f.excludes (String.ofList dir ++ "/_")

variable {f : FileFilter} {base name path : String} {t : FileTree}

/-! ### Directories above a path -/

theorem above_append (a b : List Char) : above (a ++ b) = above a ++ (above b).map (a ++ ·) := by
  induction a with
  | nil => simp [above]
  | cons c a ih =>
    rw [List.cons_append, above, above, ih]
    split <;> simp

theorem above_of_not_mem {cs : List Char} (h : '/' ∉ cs) : above cs = [] := by
  induction cs with
  | nil => rfl
  | cons c cs ih =>
    obtain ⟨hne, hrest⟩ := not_or.mp (mt List.mem_cons.mpr h)
    rw [above, if_neg (by simpa using Ne.symm hne), ih hrest]
    rfl

theorem mem_above {dir cs : List Char} : dir ∈ above cs ↔ ∃ below, cs = dir ++ '/' :: below := by
  constructor
  · intro h
    -- a directory above is cut off at a slash: the first one, or a later one behind its first letter
    induction cs generalizing dir with
    | nil => cases h
    | cons c cs ih =>
      unfold above at h
      split at h
      · rename_i hc
        rcases List.mem_cons.mp h with rfl | hmem
        · exact ⟨cs, by rw [eq_of_beq hc]; rfl⟩
        · obtain ⟨dir, hdir, rfl⟩ := List.mem_map.mp hmem
          obtain ⟨below, rfl⟩ := ih hdir
          exact ⟨below, rfl⟩
      · obtain ⟨dir, hdir, rfl⟩ := List.mem_map.mp h
        obtain ⟨below, rfl⟩ := ih hdir
        exact ⟨below, rfl⟩
  · rintro ⟨below, rfl⟩
    rw [above_append]
    exact List.mem_append_right _ (List.mem_map.mpr ⟨[], by simp [above], List.append_nil dir⟩)

/-- A path is skipped when it leads through a directory that a made-up name in it excludes. -/
theorem skips_iff : f.skips path = true ↔
    ∃ dir below, path = dir ++ "/" ++ below ∧ Glob.matchesAny f.excludes (dir ++ "/_") = true := by
  unfold skips
  rw [List.any_eq_true]
  constructor
  · rintro ⟨dir, hdir, hmatch⟩
    obtain ⟨below, hpath⟩ := mem_above.mp hdir
    refine ⟨String.ofList dir, String.ofList below, ?_, hmatch⟩
    rw [← String.toList_inj, hpath]
    simp
  · rintro ⟨dir, below, rfl, hmatch⟩
    exact ⟨dir.toList, mem_above.mpr ⟨below.toList, by simp⟩, by rwa [String.ofList_toList]⟩

/-- What is below a path is skipped if the path is. -/
theorem skips_append (h : f.skips path = true) (below : String) : f.skips (path ++ below) = true := by
  obtain ⟨dir, rest, rfl, hmatch⟩ := skips_iff.mp h
  exact skips_iff.mpr ⟨dir, rest ++ below, String.append_assoc .., hmatch⟩

/-- A name at the end of a path adds no directory. -/
theorem skips_name (hname : IsName name) : f.skips (base ++ name) = f.skips base := by
  unfold skips
  rw [String.toList_append, above_append, above_of_not_mem hname.slash_not_mem, List.map_nil,
    List.append_nil]

/-- A slash behind a path adds the directory that it leads to. -/
theorem skips_slash (path : String) :
    f.skips (path ++ "/") = (f.skips path || Glob.matchesAny f.excludes (path ++ "/_")) := by
  have htext : (path ++ "/").toList = path.toList ++ ['/'] := by simp
  unfold skips
  rw [htext, above_append, List.any_append]
  simp [above]

/-! ### The walk -/

mutual

/-- The walk finds the wanted files of an entry that it does not skip. -/
theorem foundIn_eq {base : String} (hbase : IsBase base) (hopen : f.skips base = false) :
    ∀ {e : Entry}, EntryWellFormed e → foundIn f base e =
      ((filesOf base e).map Prod.fst).filter fun path => f.wants path && !f.skips path
  | .file name content, hname => by
    have hwants : f.wants (base ++ name) = f.accepts name (base ++ name) := by
      rw [wants, fileName_append hbase hname]
    rw [foundIn, filesOf, List.map_singleton, List.filter_singleton, hwants, skips_name hname, hopen]
    simp
  | .dir name entries, ⟨hname, hentries⟩ => by
    have hskips : f.skips (base ++ name ++ "/")
        = Glob.matchesAny f.excludes (base ++ name ++ "/_") := by
      rw [skips_slash, skips_name hname, hopen, Bool.false_or]
    -- the walk asks of the made-up name what makes it skip the directory of this name
    rw [foundIn, filesOf]
    split
    · -- every file below is skipped
      rename_i hmatch
      refine (List.filter_eq_nil_iff.mpr fun path hpath => ?_).symm
      obtain ⟨below, rfl⟩ := base_of_mem_filesBelow entries hpath
      simp [skips_append (hskips.trans hmatch) below]
    · rename_i hmatch
      exact foundBelow_eq (.slash _) (hskips.trans (Bool.eq_false_iff.mpr hmatch)) hentries

/-- The walk finds the wanted files of some entries that it does not skip. -/
theorem foundBelow_eq {base : String} (hbase : IsBase base) (hopen : f.skips base = false) :
    ∀ {entries : List Entry}, WellFormed entries → foundBelow f base entries =
      ((filesBelow base entries).map Prod.fst).filter fun path => f.wants path && !f.skips path
  | [], _ => by simp [foundBelow, filesBelow]
  | e :: rest, ⟨he, _, hrest⟩ => by
    rw [foundBelow, filesBelow, List.map_append, List.filter_append, foundIn_eq hbase hopen he,
      foundBelow_eq hbase hopen hrest]

end

/-- The walk finds the wanted files that it does not skip, sorted. -/
theorem discover_eq (ht : t.WellFormed) : f.discover t =
    ((f.wanted t).filter fun path => !f.skips path).mergeSort fun a b => !(b < a) := by
  have hopen : f.skips "" = false := rfl
  unfold discover wanted
  rw [foundBelow_eq .nil hopen ht, List.filter_filter]
  simp only [Bool.and_comm, files]

theorem mem_discover (ht : t.WellFormed) :
    path ∈ f.discover t ↔ path ∈ f.wanted t ∧ f.skips path = false := by
  rw [discover_eq ht, List.mem_mergeSort, List.mem_filter, Bool.not_eq_true']

/-- Paths that are not repeated are sorted into an order without repetitions. -/
theorem pairwise_lt_mergeSort {paths : List String} (h : paths.Nodup) :
    (paths.mergeSort fun a b => !(b < a)).Pairwise (· < ·) := by
  have horder : (fun a b : String => !decide (b < a)) = fun a b => decide (id a ≤ id b) := by
    funext a b
    rw [← decide_not, id, id, decide_eq_decide, String.not_lt]
  have hnodup : (paths.mergeSort fun a b => !(b < a)).Nodup :=
    (List.mergeSort_perm paths _).nodup_iff.mpr h
  -- in order and different: each is before the later ones
  rw [horder] at hnodup ⊢
  refine ((pairwise_mergeSort_name id paths).and hnodup).imp fun ⟨hle, hne⟩ => ?_
  rcases Text.lt_or_eq_or_gt _ _ with hlt | heq | hgt
  · exact hlt
  · exact absurd heq hne
  · exact absurd hgt (String.not_lt.mpr hle)

/-! ### Plain filtering -/

/-- Plain filtering gives the same if and only if no wanted file is skipped. -/
theorem discover_eq_filtered_iff (ht : t.WellFormed) :
    f.discover t = f.filtered t ↔ ∀ path ∈ f.wanted t, f.skips path = false := by
  constructor
  · intro h path hpath
    have hmem : path ∈ f.filtered t := List.mem_mergeSort.mpr hpath
    rw [← h] at hmem
    exact ((mem_discover ht).mp hmem).2
  · intro h
    have hall : (f.wanted t).filter (fun path => !f.skips path) = f.wanted t :=
      List.filter_eq_self.mpr fun path hpath => by rw [h path hpath]; rfl
    rw [discover_eq ht, hall]
    rfl

/-- No wanted file is skipped for patterns that do not look at the names in a directory. -/
theorem not_skips_of_takesWhole
    (hexcludes : ∀ pattern ∈ f.excludes, Glob.takesWhole pattern.toList = true)
    (hpath : path ∈ f.wanted t) : f.skips path = false := by
  obtain ⟨-, hwants⟩ := List.mem_filter.mp hpath
  have hkept : Glob.matchesAny f.excludes path = false := by
    simp only [wants, accepts, Bool.and_eq_true, Bool.not_eq_true'] at hwants
    exact hwants.1.2
  rw [Bool.eq_false_iff]
  intro hskips
  obtain ⟨dir, below, rfl, hmatch⟩ := skips_iff.mp hskips
  rw [Glob.matchesAny_below hexcludes hmatch below] at hkept
  cases hkept

/-- What is skipped unless told otherwise is what plain filtering leaves out. -/
theorem discover_default (ht : t.WellFormed) (hexcludes : f.excludes = defaultExclude) :
    f.discover t = f.filtered t := by
  have hwhole : ∀ pattern ∈ defaultExclude, Glob.takesWhole pattern.toList = true := by
    decide +kernel
  exact (discover_eq_filtered_iff ht).mpr fun path hpath =>
    not_skips_of_takesWhole (hexcludes ▸ hwhole) hpath

/-- **The walk and plain filtering.**  The walk gives, sorted and without repetitions, the wanted files
    that are below no directory in which a made-up name is excluded.  Plain filtering of all files gives
    the same if and only if no wanted file is below such a directory, and so it is when the patterns to
    exclude do not look at the names in a directory. -/
theorem walk_finds (f : FileFilter) {t : FileTree} (ht : t.WellFormed) :
    (f.discover t).Pairwise (· < ·) ∧
    (∀ path, path ∈ f.discover t ↔ path ∈ f.wanted t ∧ ¬ ∃ dir below,
      path = dir ++ "/" ++ below ∧ Glob.matchesAny f.excludes (dir ++ "/_") = true) ∧
    (f.discover t = f.filtered t ↔ ∀ path ∈ f.wanted t, f.skips path = false) ∧
    ((∀ pattern ∈ f.excludes, Glob.takesWhole pattern.toList = true) →
      f.discover t = f.filtered t) := by
  refine ⟨?_, fun path => ?_, discover_eq_filtered_iff ht, fun hexcludes => ?_⟩
  · rw [discover_eq ht]
    exact pairwise_lt_mergeSort (((nodup_files ht).filter _).filter _)
  · rw [mem_discover ht, ← skips_iff, Bool.not_eq_true]
  · exact (discover_eq_filtered_iff ht).mpr fun path hpath => not_skips_of_takesWhole hexcludes hpath

/-- A directory that is passed over at any depth, a file with a name like that of the directory, and one
    that a pattern of names excludes. -/
theorem walk_finds_beside_vendor :
    let f : FileFilter := { extensions := [".py"], excludes := ["**/vendor/**", "**/test_*.py"] }
    let t := FileTree.ofFiles
      [("pkg/b.py", []), ("pkg/vendor/lib/c.py", []), ("pkg/test_b.py", []), ("vendor.py", [])] []
    t.WellFormed ∧ (∀ pattern ∈ f.excludes, Glob.takesWhole pattern.toList = true) ∧
      f.skips "pkg/vendor/lib/c.py" = true ∧ f.discover t = ["pkg/b.py", "vendor.py"] := by
  intro f t
  have ht : t.WellFormed := wellFormed_ofFiles _ _
  have hwhole : ∀ pattern ∈ f.excludes, Glob.takesWhole pattern.toList = true := by decide +kernel
  have hwanted : f.wanted t = ["pkg/b.py", "vendor.py"] := by decide +kernel
  have hplain : f.filtered t = ["pkg/b.py", "vendor.py"] := by
    rw [filtered, hwanted]
    exact List.mergeSort_of_pairwise (by decide)
  obtain ⟨-, -, -, hsame⟩ := walk_finds f ht
  exact ⟨ht, hwhole, by decide +kernel, (hsame hwhole).trans hplain⟩

/-- A pattern of names that begin with an underscore: no pattern excludes the file, and its directory does
    not begin with one, but a made-up name in the directory does. -/
theorem walk_misses_a_file :
    let f : FileFilter := { extensions := [".py"], excludes := ["**/_*"] }
    let t := FileTree.ofFiles [("pkg/a.py", [])] []
    t.WellFormed ∧ Glob.matchesAny f.excludes "pkg/a.py" = false ∧
      Glob.matchesAny f.excludes "pkg/_" = true ∧ f.filtered t = ["pkg/a.py"] ∧ f.discover t = [] := by
  exact ⟨wellFormed_ofFiles _ _, by decide +kernel, by decide +kernel, by decide +kernel,
    by decide +kernel⟩

end Docsmith.FileFilter
