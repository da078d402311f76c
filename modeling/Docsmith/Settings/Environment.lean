import Docsmith.Settings.Basic
import Docsmith.Text.Case

namespace Docsmith

/-!
# Settings from the environment

* `Environment`: variables with their values.
* `Setting.variableName`: the variable of a setting.
* `Environment.layer`: what the variables say about settings.
* `Settings.resolvedKey`: the key of the provider, from the settings or from the provider's own
  variable.
* `Settings.endpoint`: the endpoint that settings describe.
-/

/-- Variables with their values. -/
abbrev Environment := List (String × String)

/-- The value of a variable. -/
def Environment.get? (env : Environment) (name : String) : Option String :=
  (env.find? (·.1 == name)).map (·.2)

/-- How the value of a variable is understood. -/
inductive Reading where
  | text
  | integer
  | float
  | truth
deriving DecidableEq, Repr

namespace Setting

/-- The variable of a setting. -/
def variableName (k : Setting) : String := "DOCPILOT_" ++ k.name.toUpper

/-- How the variable of a setting is understood; lists have none. -/
def reading? : Setting → Option Reading
  | provider | model | baseUrl | apiKey | footer | branch => some .text
  | maxOutputTokens | fileWorkers | symbolWorkers | limit | fileLimit | perFileLimit =>
    some .integer
  | temperature => some .float
  | forceMinify => some .truth
  | includes | excludes | matching => none

end Setting

/-- The words for truth. -/
def trueWords : List String := ["1", "true", "yes"]

/-- The value that a text stands for; an empty one says nothing, except about truth. -/
def Reading.value (text : String) : Reading → Except SettingsFault (Option Json)
  | .truth => .ok (some (.bool (trueWords.contains (Text.lowerText text))))
  | .text => .ok (if text.isEmpty then none else some (.text text))
  | .integer =>
    if text.isEmpty then .ok none
    else match readInt? text with
      | some n => .ok (some (.num (.int n)))
      | none => .error (.notInteger text)
  | .float =>
    if text.isEmpty then .ok none
    else match readFloat? text with
      | some x => .ok (some (.num (.float x)))
      | none => .error (.notFloat text)

namespace Environment

/-- What the variables say about a setting. -/
def value (env : Environment) (k : Setting) : Except SettingsFault (Option Json) :=
  match k.reading?, env.get? k.variableName with
  | some reading, some text => reading.value text
  | _, _ => .ok none

/-- What the variables say about all settings. -/
def layer (env : Environment) : Except SettingsFault Layer := do
  let said ← Setting.all.mapM fun k => return (k, ← env.value k)
  return fun k => (said.find? (·.1 = k)).bind (·.2)

/-- The settings of a lower layer with the variables over it. -/
def settings (env : Environment) (lower : Layer) : Except SettingsFault Settings :=
  env.layer.map fun upper => .ofLayer (upper.onto lower)

end Environment

namespace Settings

/-- The variable that holds the key of the provider. -/
def keyVariable (s : Settings) : String :=
  if s.isProvider .anthropic then "ANTHROPIC_API_KEY" else "OPENAI_API_KEY"

/-- The key of the provider: the one that is set, or else the one of the provider's own variable. -/
def resolvedKey (s : Settings) (env : Environment) : Json :=
  if (s.get .apiKey).truthy then s.get .apiKey else .text ((env.get? s.keyVariable).getD "")

/-- The fault of a key that is missing. -/
def missingKey : Provider → ServiceFault
  | .openai => .raised .os "OPENAI_API_KEY missing. Set it in .env or environment."
  | .anthropic =>
    .raised .value "Anthropic API key not found. Set ANTHROPIC_API_KEY environment variable."

/-- The endpoint of a provider with the settings. -/
def endpointOf (s : Settings) (env : Environment) (p : Provider) : Except ServiceFault Endpoint :=
  let key := s.resolvedKey env
  if !key.truthy then .error (missingKey p)
  else .ok
    { provider := p, apiKey := key, model := s.get .model,
      url := if (s.get .baseUrl).truthy then s.get .baseUrl else .text p.url,
      maxTokens := s.get .maxOutputTokens, temperature := s.get .temperature }

/-- The endpoint that the settings describe. -/
def endpoint (s : Settings) (env : Environment) : Except ServiceFault Endpoint :=
  if s.isProvider .anthropic then s.endpointOf env .anthropic
  else if s.isProvider .openai then s.endpointOf env .openai
  else .error (.raised .value ("Unknown provider: " ++ (s.get .provider).display
    ++ " (expected 'openai' or 'anthropic')"))

end Settings

end Docsmith
