import Docsmith.Files.Folder

namespace Docsmith

/-!
# What writing a file does to the others

* `FileTree.content?`: the content of the file at a path, if there is one.
* `FileTree.content?_makeDir`: new directories leave every file as it is.
* `FileTree.content?_write`: a file that was written is read back, and the others stay.
* `Store.Lawful`: what a patch asks of a store, and `Folder.store_lawful`: folders are such stores.
-/

namespace FileTree

/-- The content of the file at a path, if there is one. -/
def content? (names : List String) (t : FileTree) : Option Bytes := (read names t).toOption

/-! ### Entries -/

/-- The entry that was put is found under its name, and what was there before under the others. -/
theorem find_put (e : Entry) (t : FileTree) (name : String) :
    entry? (put e t) name = if name = e.name then some e else entry? t name := by
  induction t with
  | nil =>
    by_cases hname : name = e.name
    · simp [put, entry?, hname]
    · simp [put, entry?, hname, Ne.symm hname]
  | cons old rest ih =>
    unfold put
    -- the entry that is replaced has the name of the new one
    split
    · rename_i heq
      by_cases hname : name = e.name
      · simp [hname, entry?]
      · have hold : old.name ≠ name := by rw [eq_of_beq heq]; exact Ne.symm hname
        simp [hname, hold, Ne.symm hname, entry?]
    · rename_i hne
      unfold entry? at ih ⊢
      rw [List.find?_cons, List.find?_cons, ih]
      by_cases hname : name = e.name
      · rw [if_pos hname, if_pos hname, hname]
        split
        · rename_i heq; exact absurd heq hne
        · rfl
      · rw [if_neg hname, if_neg hname]

theorem find_put_file (name : String) (content : Bytes) (t : FileTree) (x : String) :
    entry? (put (.file name content) t) x
      = if x = name then some (.file name content) else entry? t x :=
  find_put (.file name content) t x

theorem find_put_dir (name : String) (inner t : FileTree) (x : String) :
    entry? (put (.dir name inner) t) x
      = if x = name then some (.dir name inner) else entry? t x :=
  find_put (.dir name inner) t x

/-! ### Contents -/

@[simp] theorem content?_nil (t : FileTree) : content? [] t = none := rfl

/-- What a single name leads to is the content of a file. -/
theorem content?_single (name : String) (t : FileTree) :
    content? [name] t = match entry? t name with
      | some (.file _ content) => some content
      | _ => none := by
  unfold content? read
  split <;> simp_all [Except.toOption]

/-- What several names lead to is below a directory. -/
theorem content?_cons (name next : String) (rest : List String) (t : FileTree) :
    content? (name :: next :: rest) t = match entry? t name with
      | some (.dir _ inner) => content? (next :: rest) inner
      | _ => none := by
  unfold content?
  rw [read]
  · split <;> simp_all [Except.toOption]
  · simp

/-- Nothing is found in an empty directory. -/
theorem content?_empty (names : List String) : content? names [] = none := by
  match names with
  | [] => rfl
  | [name] => rfl
  | name :: next :: rest => rw [content?_cons]; rfl

/-- A directory with the files of the one before, or with none where there was nothing, changes the
    content of no file. -/
theorem content?_put_dir {t inner inner' : FileTree} {name : String}
    (hold : (∃ n, entry? t name = some (.dir n inner)) ∨ entry? t name = none ∧ inner = [])
    (hsame : ∀ names, content? names inner' = content? names inner) (names : List String) :
    content? names (put (.dir name inner') t) = content? names t := by
  match names with
  | [] => rfl
  | [x] =>
    rw [content?_single, content?_single]
    -- below a directory nothing is a file of its own name
    by_cases hx : x = name
    · subst hx
      rw [find_put_dir, if_pos rfl]
      rcases hold with ⟨n, hn⟩ | ⟨hn, -⟩ <;> rw [hn]
    · rw [find_put_dir, if_neg hx]
  | x :: y :: rest =>
    rw [content?_cons, content?_cons]
    by_cases hx : x = name
    · subst hx
      rw [find_put_dir, if_pos rfl]
      rcases hold with ⟨n, hn⟩ | ⟨hn, rfl⟩
      · rw [hn]; exact hsame _
      · rw [hn]; exact (hsame _).trans (content?_empty _)
    · rw [find_put_dir, if_neg hx]

/-- New directories leave every file as it is. -/
theorem content?_makeDir {path : List String} {t made : FileTree} (h : makeDir path t = .ok made)
    (names : List String) : content? names made = content? names t := by
  induction path generalizing t made names with
  | nil => cases h; rfl
  | cons name rest ih =>
    -- down the path a directory is there already or is made with nothing in it; a file stops it
    unfold makeDir at h
    split at h
    · rename_i n inner hentry
      cases hmade : makeDir rest inner with
      | error e => rw [hmade] at h; cases h
      | ok inner' =>
        rw [hmade] at h
        cases h
        exact content?_put_dir (.inl ⟨n, hentry⟩) (ih hmade) names
    · cases h
    · rename_i hentry
      cases hmade : makeDir rest [] with
      | error e => rw [hmade] at h; cases h
      | ok inner' =>
        rw [hmade] at h
        cases h
        exact content?_put_dir (.inr ⟨hentry, rfl⟩) (ih hmade) names

/-- A file that takes the place of no directory is read back, and the content of every other file stays. -/
theorem content?_put_file {content : Bytes} {t : FileTree} {name : String}
    (hfree : ∀ n inner, entry? t name ≠ some (.dir n inner)) (names : List String) :
    content? names (put (.file name content) t)
      = if names = [name] then some content else content? names t := by
  match names with
  | [] => rfl
  | [x] =>
    rw [content?_single, content?_single, find_put_file]
    by_cases hx : x = name
    · rw [if_pos hx, if_pos (by rw [hx])]
    · rw [if_neg hx, if_neg (by simpa using hx)]
  | x :: y :: rest =>
    rw [if_neg (by simp), content?_cons, content?_cons, find_put_file]
    by_cases hx : x = name
    · -- nothing is below a file, and nothing was below the name before
      rw [if_pos hx, hx]
      cases hold : entry? t name with
      | none => rfl
      | some e =>
        cases e with
        | file n c => rfl
        | dir n inner => exact absurd hold (hfree n inner)
    · rw [if_neg hx]

/-- A directory in which one file has new content is one for the tree around it. -/
theorem content?_put_below {content : Bytes} {t inner inner' : FileTree} {name n next : String}
    {rest : List String} (hentry : entry? t name = some (.dir n inner))
    (hbelow : ∀ names, content? names inner'
      = if names = next :: rest then some content else content? names inner) (names : List String) :
    content? names (put (.dir name inner') t)
      = if names = name :: next :: rest then some content else content? names t := by
  -- only a path of two names or more can lead through the folder that was put
  match names with
  | [] => rfl
  | [x] =>
    rw [if_neg (by simp), content?_single, content?_single, find_put_dir]
    by_cases hx : x = name
    · rw [if_pos hx, hx, hentry]
    · rw [if_neg hx]
  | x :: y :: more =>
    rw [content?_cons, content?_cons, find_put_dir]
    by_cases hx : x = name
    · rw [if_pos hx, hx, hentry]
      simpa using hbelow (y :: more)
    · rw [if_neg hx, if_neg (by simp [hx])]

/-- A file that was written is read back, and the content of every other file stays. -/
theorem content?_write {content : Bytes} {path : List String} {t written : FileTree}
    (h : write content path t = .ok written) (names : List String) :
    content? names written = if names = path then some content else content? names t := by
  -- down the path one directory after another takes the place of the old one
  induction path generalizing t written names with
  | nil => cases h
  | cons name rest ih =>
    cases rest with
    | nil =>
      unfold write at h
      split at h
      · cases h
      · -- only a directory of this name keeps the file from being written
        rename_i hfree
        cases h
        exact content?_put_file hfree names
    | cons next more =>
      unfold write at h
      split at h
      · rename_i n inner hentry
        cases hinner : write content (next :: more) inner with
        | error e => rw [hinner] at h; cases h
        | ok inner' =>
          rw [hinner] at h
          cases h
          exact content?_put_below hentry (ih hinner) names
      · cases h
      · cases h

end FileTree

/-! ### Stores -/

/-- What is relied on of a store.  Names lead to places, a file that was written is read back from
    its place, and whatever comes of writing a file, the other places stay as they are. -/
structure Store.Lawful {δ π : Type} (store : Store δ) (place : String → π)
    (content : δ → π → Option Bytes) : Prop where
  written : ∀ {disk disk' file code}, store.write disk file code = (.ok (), disk') →
    content disk' (place file) = some code
  others : ∀ {disk file code q}, q ≠ place file →
    content (store.write disk file code).2 q = content disk q

/-- What a folder writes: the directories that lead to the file, and then the file. -/
theorem Folder.write_eq_ok {f : Folder} {disk disk' : FileTree} {file : String} {code : Bytes}
    (h : f.write disk file code = .ok disk') :
    ∃ made, FileTree.makeDir (f.names ++ Path.parts file).dropLast disk = .ok made ∧
      FileTree.write code (f.names ++ Path.parts file) made = .ok disk' := by
  simp only [Folder.write] at h
  cases hmade : FileTree.makeDir (f.names ++ Path.parts file).dropLast disk with
  | error e => rw [hmade] at h; cases h
  | ok made =>
    rw [hmade] at h
    refine ⟨made, rfl, ?_⟩
    cases hwritten : FileTree.write code (f.names ++ Path.parts file) made with
    | error e => simp only [refused, bind, Except.bind, hwritten] at h; cases h
    | ok written =>
      simp only [refused, bind, Except.bind, hwritten] at h
      cases h
      rfl

/-- **Folders are lawful**, with the names along a path as its place. -/
theorem Folder.store_lawful (f : Folder) :
    f.store.Lawful (fun file => f.names ++ Path.parts file)
      fun disk names => FileTree.content? names disk where
  written := by
    intro disk disk' file code h
    -- the directories that are made leave every file as it is, and the file is written behind them
    simp only [Folder.store] at h
    cases hwrite : f.write disk file code with
    | error e => rw [hwrite] at h; cases h
    | ok written =>
      rw [hwrite] at h
      cases h
      obtain ⟨made, -, hwritten⟩ := Folder.write_eq_ok hwrite
      rw [FileTree.content?_write hwritten, if_pos rfl]
  others := by
    intro disk file code q hq
    simp only [Folder.store]
    cases hwrite : f.write disk file code with
    | error e => rfl
    | ok written =>
      obtain ⟨made, hmade, hwritten⟩ := Folder.write_eq_ok hwrite
      rw [FileTree.content?_write hwritten, if_neg hq, FileTree.content?_makeDir hmade]

end Docsmith
