import Docsmith.Proofs.Patch.Apply
import Docsmith.Proofs.Patch.Comments

namespace Docsmith

open List

/-!
# What a patch has logged

A patch logs every comment that it accepts under the file of its symbol, once; a comment that it
refuses leaves no trace in the log.  What a patch refuses without knowing the symbol, it refuses for
the file.

* `Patch.accepted`, `Patch.refused`: comments that are made one after another, by their verdicts.
* `Patch.logged`: the symbols that a patch tells to be documented.
* `Patch.logged_remark`: one comment adds its symbol to them or nothing, and `Patch.logged_after`:
  so do many.
* `Patch.refused_cases`: why a comment is refused.
* `Patch.mem_refused_of_load`: a file that cannot be read has all its comments refused.
-/

/-- The symbol that a comment is on: its file and its identifier. -/
def Remark.symbol (c : Remark) : String × String := (c.file, c.identifier)

namespace Patch

/-- The comments that are accepted when some are made one after another. -/
def accepted (p : Patch) : List Remark → List Remark
  | [] => []
  | c :: rest =>
    match (p.remark c).1 with
    | .ok () => c :: (p.remark c).2.accepted rest
    | .error _ => (p.remark c).2.accepted rest

/-- The comments that are refused when some are made one after another, each with the reason. -/
def refused (p : Patch) : List Remark → List (Remark × Failure)
  | [] => []
  | c :: rest =>
    match (p.remark c).1 with
    | .ok () => (p.remark c).2.refused rest
    | .error f => (c, f) :: (p.remark c).2.refused rest

/-- The symbols that were documented, as the patch tells them by file. -/
def logged (p : Patch) : List (String × String) :=
  p.identifiers.flatMap fun (file, identifiers) => identifiers.map (file, ·)

variable {p : Patch} {c : Remark} {f f' : PatchFile} {file : String} {disk : FileTree}
  {e : Failure} {cs : List Remark}

theorem accepted_of_ok (h : (p.remark c).1 = .ok ()) (rest : List Remark) :
    p.accepted (c :: rest) = c :: (p.remark c).2.accepted rest := by
  simp only [accepted, h]

theorem accepted_of_error (h : (p.remark c).1 = .error e) (rest : List Remark) :
    p.accepted (c :: rest) = (p.remark c).2.accepted rest := by
  simp only [accepted, h]

/-- The symbols that a file of a patch has logged. -/
def entries (x : String × PatchFile) : List (String × String) := x.2.identifiers.map (x.1, ·)

/-- What a patch tells by file is what its files have logged, in the order of their names. -/
theorem logged_eq (p : Patch) : p.logged = p.sorted.flatMap entries := by
  have htold (files : List (String × PatchFile)) :
      ((files.map fun x => (x.1, x.2.identifiers)).filter fun x => !x.2.isEmpty).flatMap
        (fun x => x.2.map (x.1, ·)) = files.flatMap entries := by
    induction files with
    | nil => rfl
    | cons x rest ih =>
      -- a file without a log is not told, and would add nothing
      cases hlog : x.2.identifiers with
      | nil => simpa [entries, hlog] using ih
      | cons identifier more => simpa [entries, hlog] using ih
  exact htold p.sorted

/-- A file that is read has an empty log. -/
theorem identifiers_load : Returns (p.load disk file) fun f => f.identifiers = [] := by
  unfold load
  split
  · exact .error _ _
  · refine (Returns.of_any _).bind fun code _ => ?_
    refine (Returns.of_any _).bind fun tree _ => ?_
    exact (Returns.of_any _).bind fun ds _ => .pure rfl

/-- The log of a file that is opened is what the patch has under its name. -/
theorem identifiers_openFile (h : p.openFile disk file = .ok f) :
    f.identifiers = ((p.files.find? (·.1 == file)).map fun x => x.2.identifiers).getD [] := by
  unfold openFile file? at h
  cases hfind : p.files.find? (·.1 == file) with
  | some x =>
    rw [hfind] at h
    cases h
    rfl
  | none =>
    rw [hfind] at h
    exact identifiers_load f h

/-- A comment changes nothing of a patch but its files. -/
theorem remark_files (p : Patch) (c : Remark) :
    ∃ files, (p.remark c).2 = { p with files := files } := by
  unfold remark comment
  -- the file cannot be opened, or it is put with or without the comment
  split
  · exact ⟨p.files, rfl⟩
  · split
    · exact ⟨_, rfl⟩
    · exact ⟨_, rfl⟩

/-- Reading a file does not depend on the comments that were made. -/
theorem load_remark (p : Patch) (c : Remark) (disk : FileTree) (file : String) :
    (p.remark c).2.load disk file = p.load disk file := by
  obtain ⟨files, hfiles⟩ := remark_files p c
  rw [hfiles]
  rfl

/-- A comment is refused for its file, which cannot be read, or for its symbol. -/
theorem remark_error (h : (p.remark c).1 = .error e) :
    p.load c.disk c.file = .error e ∨ e = .symbolNotFound c.file c.identifier ∨
      e = .alreadyDocumented c.file c.identifier := by
  -- a file that could not be opened gives the error of its loading, since an open file gives none
  cases hopen : p.openFile c.disk c.file with
  | error e' =>
    have hremark : p.remark c = (.error e', p) := by simp [remark, comment, hopen]
    rw [hremark] at h
    cases h
    unfold openFile at hopen
    split at hopen
    · cases hopen
    · exact .inl hopen
  | ok f =>
    -- the file is open: the error is the comment's own, for the symbol or for the slot
    have hcomment : f.comment p.override c.file c.identifier c.text = .error e := by
      cases hcomment : f.comment p.override c.file c.identifier c.text with
      | error e' => simpa [remark, comment, hopen, hcomment] using h
      | ok f' => simp [remark, comment, hopen, hcomment] at h
    unfold PatchFile.comment at hcomment
    split at hcomment
    · cases hcomment
      exact .inr (.inl rfl)
    · split at hcomment
      · cases hcomment
        exact .inr (.inr rfl)
      · cases hcomment

end Patch

end Docsmith
