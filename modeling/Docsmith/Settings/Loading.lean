import Docsmith.Files.Folder
import Docsmith.Settings.Environment
import Docsmith.Yaml.Reading

namespace Docsmith

/-!
# Loading settings

A repository may have a file of settings in its folder.  The variables of the environment lie over
it.

* `settingsFile`: the name of the file.
* `LoadedSettings`: settings, with the warnings that came up.
* `loadSettings`: the settings of a folder.
-/

/-- The name of the file of settings. -/
def settingsFile : String := ".docpilot.yaml"

/-- Settings or why there are none, and the warnings that came up. -/
structure LoadedSettings where
  result : Except SettingsFault Settings
  warnings : List String := []

/-- The sort of a key, for messages. -/
def Yaml.sort (y : Yaml) : String := y.toJson.typeName

/-- The fault of keys that are no texts, when they are no settings and have to be named: keys of
    several sorts cannot be sorted, and others cannot be written. -/
def oddKey? (keys : List Yaml) : Option SettingsFault :=
  let unknown := keys.filter fun
    | .scalar (.text s) => (Setting.ofName? s).isNone
    | _ => true
  match unknown.map Yaml.sort with
  | [] => none
  | sort :: sorts =>
    match sorts.find? (· != sort) with
    | some other =>
      some (.oddName ("'<' not supported between instances of '" ++ other ++ "' and '" ++ sort
        ++ "'"))
    | none =>
      if sort == "str" then none
      else some (.oddName ("sequence item 0: expected str instance, " ++ sort ++ " found"))

/-- The fields of a document of settings; an empty one has none. -/
def settingsFields (path : String) (y : Yaml) : Except SettingsFault (List (String × Json)) :=
  let j := y.toJson
  if !j.truthy then .ok []
  else match y, j with
    | .mapping pairs, .object fields =>
      match oddKey? (pairs.map (·.1)) with
      | some fault => .error fault
      | none => .ok fields
    | _, j => .error (.notMapping path j.typeName)

/-- The fields of the file of settings in a folder; none when there is no such file. -/
def readSettings (folder : Folder) (disk : FileTree) :
    Except SettingsFault (List (String × Json)) :=
  let path := Path.join folder.path settingsFile
  if !FileTree.contains (folder.names ++ [settingsFile]) disk then .ok []
  else match folder.read disk settingsFile with
    | .error f => .error (.unreadable f)
    | .ok bytes =>
      match Text.decode bytes with
      | .error fault => .error (.unreadable (.notText fault))
      | .ok text =>
        match Yaml.parse? text with
        | none => .error (.malformed path)
        | some y => settingsFields path y

/-- The settings of a folder: those of its file, with the variables over them. -/
def loadSettings (folder : Folder) (disk : FileTree) (env : Environment) : LoadedSettings :=
  match readSettings folder disk with
  | .error fault => { result := .error fault }
  | .ok fields =>
    { result := env.settings (Settings.ofLayer (Layer.ofFields fields)).toLayer
      warnings := Layer.warnings fields }

end Docsmith
