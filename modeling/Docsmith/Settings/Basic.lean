import Docsmith.Git.Commit
import Docsmith.Service.Endpoint
import Docsmith.Tokens

namespace Docsmith

/-!
# Settings

Every setting has a name, and a value that it has unless told otherwise.  The sources of settings
are layers, each of which may say something about each setting; the upper of two layers wins.

* `Setting`: what can be set, with `Setting.name` and `Setting.initial`.
* `Layer`: what a source says, with `Layer.onto` and `Layer.ofFields`.
* `Settings`: a value for every setting.
* `Settings.ofLayer`: the values that follow from a layer.
* `SettingsFault`: why there are no settings.
-/

/-- What can be set. -/
inductive Setting where
  | provider
  | model
  | baseUrl
  | apiKey
  | maxOutputTokens
  | temperature
  | fileWorkers
  | symbolWorkers
  | limit
  | fileLimit
  | perFileLimit
  | includes
  | excludes
  | matching
  | footer
  | branch
  | forceMinify
deriving DecidableEq, Repr

namespace Setting

/-- Every setting. -/
def all : List Setting :=
  [provider, model, baseUrl, apiKey, maxOutputTokens, temperature, fileWorkers, symbolWorkers,
   limit, fileLimit, perFileLimit, includes, excludes, matching, footer, branch, forceMinify]

/-- The name of a setting in a file of settings. -/
def name : Setting → String
  | provider => "provider"
  | model => "model"
  | baseUrl => "base_url"
  | apiKey => "api_key"
  | maxOutputTokens => "max_output_tokens"
  | temperature => "temperature"
  | fileWorkers => "file_workers"
  | symbolWorkers => "symbol_workers"
  | limit => "limit"
  | fileLimit => "file_limit"
  | perFileLimit => "per_file_limit"
  | includes => "include"
  | excludes => "exclude"
  | matching => "match"
  | footer => "footer"
  | branch => "branch"
  | forceMinify => "force_minify"

/-- The setting of a name. -/
def ofName? (s : String) : Option Setting := all.find? (·.name == s)

/-- The value of a setting of which nothing is said. -/
def initial : Setting → Json
  | provider => .text Provider.openai.name
  | maxOutputTokens => .num (.int reservedOutputTokens)
  | temperature => .num (.float 0.2)
  | model | baseUrl | apiKey | footer => .text ""
  | fileWorkers | symbolWorkers | limit | fileLimit | perFileLimit => .num (.int 0)
  | includes | excludes | matching => .list []
  | branch => .text defaultBranch
  | forceMinify => .bool false

end Setting

/-- Why there are no settings: the file of settings is no mapping or cannot be read, it has a name
    that is no text, a variable does not spell a number, or a setting is not known. -/
inductive SettingsFault where
  | notMapping (path sort : String)
  | malformed (path : String)
  | oddName (text : String)
  | notInteger (text : String)
  | notFloat (text : String)
  | unknown (name : String)
  | unreadable (failure : Failure)

/-- The cause in words. -/
def SettingsFault.message : SettingsFault → String
  | notMapping path sort => path ++ ": expected a mapping, got " ++ sort
  | malformed path => path ++ ": not a well-formed document"
  | oddName text => text
  | notInteger text => "invalid literal for int() with base 10: " ++ Text.quote text
  | notFloat text => "could not convert string to float: " ++ Text.quote text
  | unknown name =>
    "DocpilotConfig.__init__() got an unexpected keyword argument " ++ Text.quote name
  | unreadable failure => failure.message

/-! ### Layers -/

/-- What a source says about each setting. -/
abbrev Layer := Setting → Option Json

namespace Layer

/-- Two layers, of which the upper one wins. -/
def onto (upper lower : Layer) : Layer := fun k => (upper k).or (lower k)

/-- The layer of some fields; the last field of a name counts. -/
def ofFields (fields : List (String × Json)) : Layer := fun k =>
  (fields.reverse.find? (·.1 == k.name)).map (·.2)

/-- The names of fields that are no settings, sorted. -/
def unknownNames (fields : List (String × Json)) : List String :=
  ((fields.map (·.1)).eraseDups.filter fun n => (Setting.ofName? n).isNone).mergeSort
    fun a b => !(b < a)

/-- The warning about fields that are no settings. -/
def warnings (fields : List (String × Json)) : List String :=
  match unknownNames fields with
  | [] => []
  | names => ["Ignoring unknown config keys: " ++ ", ".intercalate names]

end Layer

/-! ### Settings -/

/-- A value for every setting. -/
structure Settings where
  get : Setting → Json

namespace Settings

/-- The provider is this one. -/
def isProvider (s : Settings) (p : Provider) : Bool :=
  match s.get .provider with
  | .text name => name == p.name
  | _ => false

/-- The model that is used when none is set. -/
def usualModel (s : Settings) : String :=
  if s.isProvider .anthropic then Provider.anthropic.defaultModel else Provider.openai.defaultModel

/-- Puts the usual model of the provider in the place of none. -/
def completed (s : Settings) : Settings where
  get k :=
    if k = .model && !(s.get .model).truthy then .text s.usualModel else s.get k

/-- The settings that follow from a layer: what it says, else the initial values, and the usual
    model of the provider if there is none. -/
def ofLayer (l : Layer) : Settings := completed ⟨fun k => (l k).getD k.initial⟩

/-- The layer that says what settings have. -/
def toLayer (s : Settings) : Layer := fun k => some (s.get k)

/-- The settings with some of them changed. -/
def replace (s : Settings) (fields : List (String × Json)) : Except SettingsFault Settings :=
  match fields.find? fun (n, _) => (Setting.ofName? n).isNone with
  | some (n, _) => .error (.unknown n)
  | none => .ok (ofLayer ((Layer.ofFields fields).onto s.toLayer))

/-- A setting as running text; empty when it counts as none. -/
def text (s : Settings) (k : Setting) : String :=
  if (s.get k).truthy then (s.get k).plain else ""

/-- A setting as a whole number; zero when it is none. -/
def integer (s : Settings) (k : Setting) : Int :=
  match s.get k with
  | .num (.int n) => n
  | .num (.float x) => if x.isFinite then x.ceil.toInt64.toInt else 0
  | .bool b => if b then 1 else 0
  | _ => 0

/-- A setting as a list of texts. -/
def texts (s : Settings) (k : Setting) : Except ServiceFault (List String) :=
  (itemsOf (s.get k)).map fun items => items.map Json.plain

/-- A setting as a truth value. -/
def flag (s : Settings) (k : Setting) : Bool := (s.get k).truthy

end Settings

end Docsmith
