import Docsmith.Files.Path

namespace Docsmith.Path

/-!
# Names along a path

* `splitOn_append`, `not_mem_of_mem_splitOn`: the pieces of a text between the places of a character.
* `parts_append`: the names along a path, and then those along the next one.
* `IsName`: a name of a file or directory, which `isName_of_mem_parts` says of every name along a path.
* `fileName_append`: such a name is the last one of a path that ends in it.
-/

variable {mark : Char} {a b : List Char}

/-! ### Pieces of a text -/

/-- A text has at least one piece. -/
theorem splitOn_ne_nil (mark : Char) (a : List Char) : splitOn mark a ≠ [] := by
  cases a with
  | nil => simp [splitOn]
  | cons c a =>
    unfold splitOn
    split
    · simp
    · split <;> simp

/-- A text without the character is one piece. -/
theorem splitOn_of_not_mem (h : mark ∉ a) : splitOn mark a = [a] := by
  induction a with
  | nil => rfl
  | cons c a ih =>
    obtain ⟨hne, hrest⟩ := not_or.mp (mt List.mem_cons.mpr h)
    rw [splitOn, if_neg (by simpa using Ne.symm hne), ih hrest]

/-- The pieces before a place of the character, and those after it. -/
theorem splitOn_append (mark : Char) (a b : List Char) :
    splitOn mark (a ++ mark :: b) = splitOn mark a ++ splitOn mark b := by
  induction a with
  | nil => simp [splitOn]
  | cons c a ih =>
    rw [List.cons_append, splitOn, splitOn, ih]
    split
    · rfl
    · cases hsplit : splitOn mark a with
      | nil => exact absurd hsplit (splitOn_ne_nil mark a)
      | cons piece pieces => rfl

/-- No piece has the character. -/
theorem not_mem_of_mem_splitOn {piece : List Char} (h : piece ∈ splitOn mark a) : mark ∉ piece := by
  induction a generalizing piece with
  | nil =>
    obtain rfl := List.mem_singleton.mp h
    exact List.not_mem_nil
  | cons c a ih =>
    unfold splitOn at h
    split at h
    · rcases List.mem_cons.mp h with rfl | hrest
      · exact List.not_mem_nil
      · exact ih hrest
    · rename_i hc
      have hne : mark ≠ c := fun heq => hc (by simp [heq])
      -- the letter joins the first piece, which has no mark by induction
      cases hsplit : splitOn mark a with
      | nil => exact absurd hsplit (splitOn_ne_nil mark a)
      | cons first pieces =>
        simp only [hsplit] at h
        rcases List.mem_cons.mp h with rfl | hrest
        · simpa [hne] using ih (by rw [hsplit]; exact List.mem_cons_self)
        · exact ih (by rw [hsplit]; exact List.mem_cons_of_mem _ hrest)

/-! ### Names -/

/-- A name of a file or directory: a path with this name along it and no other. -/
def IsName (name : String) : Prop := parts name = [name]

instance (name : String) : Decidable (IsName name) := inferInstanceAs (Decidable (_ = _))

/-- The names along a path, and then those along the next one. -/
theorem parts_append (path next : String) :
    parts (path ++ "/" ++ next) = parts path ++ parts next := by
  have hlist : (path ++ "/" ++ next).toList = path.toList ++ '/' :: next.toList := by simp
  unfold parts
  rw [hlist, splitOn_append, List.filter_append, List.map_append]

/-- Every name along a path is one of a file or directory. -/
theorem isName_of_mem_parts {path name : String} (h : name ∈ parts path) : IsName name := by
  obtain ⟨piece, hpiece, rfl⟩ := List.mem_map.mp h
  obtain ⟨hsplit, hmeans⟩ := List.mem_filter.mp hpiece
  unfold IsName parts
  rw [String.toList_ofList, splitOn_of_not_mem (not_mem_of_mem_splitOn hsplit)]
  simp [hmeans]

/-- A name has no slash. -/
theorem IsName.slash_not_mem {name : String} (h : IsName name) : '/' ∉ name.toList := by
  have hmem : name ∈ parts name := by
    rw [show parts name = [name] from h]
    exact List.mem_singleton_self name
  obtain ⟨piece, hpiece, rfl⟩ := List.mem_map.mp hmem
  rw [String.toList_ofList]
  exact not_mem_of_mem_splitOn (List.mem_filter.mp hpiece).1

/-- What may stand before a name: nothing, or a path that ends in a slash. -/
inductive IsBase : String → Prop where
  | nil : IsBase ""
  | slash (path : String) : IsBase (path ++ "/")

/-- The last name of a path that ends in it. -/
theorem fileName_append {base name : String} (hbase : IsBase base) (hname : IsName name) :
    fileName (base ++ name) = name := by
  have hparts : parts name = [name] := hname
  cases hbase with
  | nil =>
    rw [String.empty_append, fileName, hparts]
    rfl
  | slash path =>
    rw [fileName, parts_append, hparts, List.getLastD_concat]

end Docsmith.Path
