import Docsmith.Files.Folder
import Docsmith.Find.Resolve
import Docsmith.Language.Registry

namespace Docsmith

open Text

/-!
# Patches

A patch collects documentation for the symbols of some files.  Each file is read and parsed once;
what is said about its symbols waits as edits of its tree until the patch is applied.

* `PatchFile`, `Patch`: the files of a patch and the edits that wait for them.
* `Patch.open`: brings a file into a patch.
* `PatchFile.comment`, `Patch.comment`: sets the documentation of a symbol.
* `Patch.identifiers`: what was documented, by file.
* `Patch.dryRun`: the files with their edits made.
* `Patch.applyTo`, `Patch.apply`: writes them, reporting every file that failed.
-/

/-- A file of a patch: its tree with the edits so far, what it declares, the text queued for each
    slot, and the identifiers that were documented, in order. -/
structure PatchFile where
  language : Language
  tree : SourceTree
  declarations : List Declaration
  texts : List (String × String) := []
  identifiers : List String := []

namespace PatchFile

/-- Replaces the text of a slot, or adds it. -/
def putText (key text : String) : List (String × String) → List (String × String)
  | [] => [(key, text)]
  | (k, old) :: rest => if k == key then (k, text) :: rest else (k, old) :: putText key text rest

/-- The text queued for a slot. -/
def text? (f : PatchFile) (key : String) : Option String :=
  (f.texts.find? (·.1 == key)).map (·.2)

/-- The slot has documentation: that which is queued for it, or else that of the source. -/
def documented (f : PatchFile) (slot : DocSlot) : Bool :=
  match f.text? slot.key with
  | some text => !isBlankText text
  | none => slot.hasDoc

/-- Queues a text for a slot. -/
def setDoc (f : PatchFile) (slot : DocSlot) (identifier text : String) : PatchFile :=
  { f with
    tree := f.tree.edit slot.key slot.start slot.stop (f.language.renderDoc slot text)
    texts := putText slot.key text f.texts
    identifiers := f.identifiers ++ [identifier] }

/-- Sets the documentation of a symbol; what is documented stays unless it may be overridden. -/
def comment (f : PatchFile) (override : Bool) (file identifier text : String) :
    Except Failure PatchFile :=
  match resolve? f.declarations identifier with
  | none => .error (.symbolNotFound file identifier)
  | some d =>
    if f.documented d.slot && !override then .error (.alreadyDocumented file identifier)
    else .ok (f.setDoc d.slot identifier text)

/-- The file with its edits made, which must be a source of its language again. -/
def render (f : PatchFile) (file : String) : Except Failure Bytes :=
  let code := f.tree.render
  match f.language.parse code with
  | .ok _ => .ok code
  | .error e => .error (e.inFile file)

end PatchFile

/-- Documentation for files below a folder, with the files it has come to so far. -/
structure Patch where
  folder : Folder
  languages : Languages := Languages.default
  override : Bool := false
  files : List (String × PatchFile) := []

namespace Patch

/-- The file of a name in the patch. -/
def file? (p : Patch) (file : String) : Option PatchFile :=
  (p.files.find? (·.1 == file)).map (·.2)

/-- Replaces a file, or adds it. -/
def putFile (file : String) (f : PatchFile) : List (String × PatchFile) → List (String × PatchFile)
  | [] => [(file, f)]
  | (k, old) :: rest => if k == file then (k, f) :: rest else (k, old) :: putFile file f rest

/-- Reads and parses a file. -/
def load (p : Patch) (disk : FileTree) (file : String) : Except Failure PatchFile := do
  match p.languages.forFile? file with
  | none => .error (.unknownLanguage file)
  | some l =>
    let code ← p.folder.read disk file
    let tree ← (l.parse code).mapError (·.inFile file)
    return { language := l, tree := tree, declarations := ← l.declarations tree }

/-- A file of the patch, which is read when it comes up first. -/
def openFile (p : Patch) (disk : FileTree) (file : String) : Except Failure PatchFile :=
  match p.file? file with
  | some f => .ok f
  | none => p.load disk file

/-- Sets the documentation of a symbol of a file.  A file that was read stays in the patch, even
    when the symbol cannot be documented. -/
def comment (p : Patch) (disk : FileTree) (file identifier text : String) :
    Except Failure Unit × Patch :=
  match p.openFile disk file with
  | .error e => (.error e, p)
  | .ok f =>
    match f.comment p.override file identifier text with
    | .error e => (.error e, { p with files := putFile file f p.files })
    | .ok f => (.ok (), { p with files := putFile file f p.files })

/-- The files, sorted by name. -/
def sorted (p : Patch) : List (String × PatchFile) :=
  p.files.mergeSort fun a b => a.1 ≤ b.1

/-- The names of the files, sorted. -/
def fileNames (p : Patch) : List String := p.sorted.map (·.1)

/-- The identifiers documented in each file, in order, for the files that have any. -/
def identifiers (p : Patch) : List (String × List String) :=
  (p.sorted.map fun (file, f) => (file, f.identifiers)).filter fun (_, ids) => !ids.isEmpty

/-- Every file with its edits made; the first that is no source any more is an error. -/
def dryRun (p : Patch) : Except Failure (List (String × Bytes)) :=
  p.sorted.mapM fun (file, f) => do return (file, ← f.render file)

/-- Renders and writes one file. -/
def applyFile {δ : Type} (store : Store δ) (disk : δ) (file : String) (f : PatchFile) :
    Except Failure Unit × δ :=
  match f.render file with
  | .ok code => store.write disk file code
  | .error e => (.error e, disk)

/-- The failure of a file under its name, if there is one. -/
def failureOf (file : String) : Except Failure Unit → List (String × Failure)
  | .ok () => []
  | .error e => [(file, e)]

/-- Writes files one after another, going on after each failure. -/
def applyFiles {δ : Type} (store : Store δ) :
    List (String × PatchFile) → δ → List (String × Failure) × δ
  | [], disk => ([], disk)
  | (file, f) :: rest, disk =>
    let first := applyFile store disk file f
    let others := applyFiles store rest first.2
    (failureOf file first.1 ++ others.1, others.2)

/-- Writes every file of the patch to a store, and reports those that failed. -/
def applyTo {δ : Type} (p : Patch) (store : Store δ) (disk : δ) : List (String × Failure) × δ :=
  applyFiles store p.sorted disk

/-- Writes every file of the patch below a folder, and reports those that failed. -/
def apply (p : Patch) (target : Folder) (disk : FileTree) : List (String × Failure) × FileTree :=
  p.applyTo target.store disk

/-- The complaint about files that could not be patched. -/
def applyMessage (failures : List (String × Failure)) : String :=
  "failed to apply patch to " ++ toString failures.length ++ " file(s): "
    ++ ", ".intercalate (failures.map (·.1))

/-- The warning about a file that could not be patched. -/
def applyWarning (file : String) (cause : Failure) : String :=
  "Failed to patch " ++ file ++ ": " ++ cause.message

end Patch

end Docsmith
