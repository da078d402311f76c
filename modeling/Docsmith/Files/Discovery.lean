import Docsmith.Files.Glob
import Docsmith.Files.Tree

namespace Docsmith

/-!
# Discovery of source files

* `defaultExclude`: the patterns of what is skipped unless told otherwise.
* `FileFilter`: which files are wanted.
* `FileFilter.accepts`: the wanted files, by their path alone.
* `FileFilter.discover`: the wanted files below a directory, without going into excluded
  directories.
-/

/-- What is skipped unless told otherwise: hidden, generated, third-party and test directories. -/
def defaultExclude : List String :=
  ["**/.*/**", "**/dist/**", "**/node_modules/**", "**/vendor/**", "**/testdata/**", "**/test/**",
   "**/tests/**", "**/__pycache__/**", "**/venv/**"]

/-- Which files are wanted: by suffix, and by patterns of paths.  No pattern to include means that
    every path is. -/
structure FileFilter where
  extensions : List String
  includes : List String := []
  excludes : List String := defaultExclude

namespace FileFilter

/-- The file with this name and path is wanted. -/
def accepts (f : FileFilter) (name path : String) : Bool :=
  f.extensions.any (name.endsWith ·)
    && !Glob.matchesAny f.excludes path
    && (f.includes.isEmpty || Glob.matchesAny f.includes path)

mutual

/-- The wanted files of an entry. -/
def foundIn (f : FileFilter) (base : String) : Entry → List String
  | .file name _ => if f.accepts name (base ++ name) then [base ++ name] else []
  | .dir name entries =>
    if Glob.matchesAny f.excludes (base ++ name ++ "/_") then []
    else foundBelow f (base ++ name ++ "/") entries

/-- The wanted files of some entries. -/
def foundBelow (f : FileFilter) (base : String) : List Entry → List String
  | [] => []
  | e :: rest => foundIn f base e ++ foundBelow f base rest

end

/-- The paths of the wanted files below a directory, sorted. -/
def discover (f : FileFilter) (t : FileTree) : List String :=
  (foundBelow f "" t).mergeSort fun a b => !(b < a)

end FileFilter

end Docsmith
